import PixelUnit.Sheet.Node
import PixelUnit.Sheet.Token
import PixelUnit.Text.Case

/-!
# Declarations

How the tokens of a statement are taken apart into a property, a value and what stands around
them. The value is kept twice if need be: as it was written, and without its comments and blanks.
-/

namespace PixelUnit.Sheet

/-- Whether a token is white space. -/
def Token.isSpacing (t : Token) : Bool :=
  t.kind == .spacing

/-- The tokens up to the white space at their end, and that white space. -/
def splitTrailing (ts : List Token) : List Token × List Token :=
  ((ts.reverse.dropWhile Token.isSpacing).reverse, (ts.reverse.takeWhile Token.isSpacing).reverse)

theorem splitTrailing_append (ts : List Token) :
    (splitTrailing ts).1 ++ (splitTrailing ts).2 = ts := by
  rw [splitTrailing, ← List.reverse_append, List.takeWhile_append_dropWhile, List.reverse_reverse]

/-! ## Importance -/

/-- The word of the mark of importance. -/
def importantWord : List Char := "important".toList

/-- Takes a word, in letters of either case, off the front of a text. -/
def takeWordUpToCase : List Char → List Char → Option (List Char × List Char)
  | [], cs => some ([], cs)
  | _ :: _, [] => none
  | w :: ws, c :: cs =>
    if Text.sameUpToCase w c then (takeWordUpToCase ws cs).map fun (t, u) => (c :: t, u) else none

/-- A text without a line feed at its end. -/
def dropLineFeed (cs : List Char) : List Char :=
  if cs.getLast? == some '\n' then cs.dropLast else cs

/-- The mark of importance at the end of a text, where a line feed may follow it, and the text
before it. The mark includes the blanks before and behind its exclamation mark. -/
def splitImportant (cs : List Char) : Option (List Char × List Char) :=
  match takeWordUpToCase importantWord.reverse (dropLineFeed cs).reverse with
  | none => none
  | some (word, r) =>
    let inner := r.takeWhile Text.isBlank
    match r.dropWhile Text.isBlank with
    | '!' :: s =>
      some ((s.dropWhile Text.isBlank).reverse,
        (s.takeWhile Text.isBlank).reverse ++ '!' :: inner.reverse ++ word.reverse)
    | _ => none

/-! ## Values -/

/-- A value without its comments, its mark of importance and the blanks around it. -/
def cleanValue (value : List Token) (important : Bool) : List Char :=
  let cs := (rawText (value.filter (·.kind != .comment))).toList
  if important then
    let cs := Text.trimEnd cs
    match splitImportant cs with
    | some (front, _) => Text.trim front
    | none => Text.trim cs
  else Text.trim cs

/-- The declaration that the tokens of a statement make up: there must be a colon, and something
before it. `before` is the text in front of the statement. -/
def declarationOf (before : String) (ts : List Token) : Option (Content × Raws) :=
  let (front, behind) := ts.span (·.kind != .colon)
  match behind with
  | [] => none
  | colon :: rest =>
    let (prop, space) := splitTrailing front
    if prop.isEmpty then none
    else
      let between := rawText space ++ colon.raw ++ rawText (rest.takeWhile Token.isSpacing)
      let (value, trailing) := splitTrailing (rest.dropWhile Token.isSpacing)
      let written := (rawText value).toList
      let mark := splitImportant written
      let raw := String.ofList ((mark.map (·.1)).getD written)
      let clean := String.ofList (cleanValue value mark.isSome)
      some (.declaration (rawText prop) clean mark.isSome,
        { before := some before
          between := some between
          trailing := some (rawText trailing)
          important := mark.map fun m => String.ofList m.2
          value := if clean == raw then none else some ⟨clean, raw⟩ })

/-- Nothing is no declaration. -/
theorem declarationOf_nil (before : String) : declarationOf before [] = none := rfl

end PixelUnit.Sheet
