/-!
# Positions

A place in a source is a line and a column, both counted from one; only a line feed starts a new
line. `advance_append` says that positions add up along a text.
-/

namespace PixelUnit.Sheet

/-- A line and a column. -/
structure Position where
  line : Nat
  column : Nat
deriving DecidableEq

namespace Position

/-- The first place of every source. -/
def start : Position := ⟨1, 1⟩

/-- The place given to what stands in no source. -/
def nowhere : Position := ⟨0, 0⟩

/-- The place behind one character. -/
def step (p : Position) (c : Char) : Position :=
  if c == '\n' then ⟨p.line + 1, 1⟩ else ⟨p.line, p.column + 1⟩

/-- The place behind a text that stands at `p`. -/
def advance (p : Position) (cs : List Char) : Position :=
  cs.foldl step p

@[simp] theorem advance_nil (p : Position) : p.advance [] = p := rfl

@[simp] theorem advance_cons (p : Position) (c : Char) (cs : List Char) :
    p.advance (c :: cs) = (p.step c).advance cs := rfl

theorem advance_append (p : Position) (cs ds : List Char) :
    p.advance (cs ++ ds) = (p.advance cs).advance ds :=
  List.foldl_append

end Position

end PixelUnit.Sheet
