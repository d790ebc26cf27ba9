import PixelUnit.Text.Blank
import PixelUnit.Text.Case
import PixelUnit.Text.Digits

/-!
# Patterns

What a regular expression means, with every flag already worked into the places it bears on.
-/

namespace PixelUnit.Regex

/-- How letter case counts. -/
inductive CaseRule where
  | exact
  | ascii
  | unicode
deriving DecidableEq

/-- Named classes of characters. -/
inductive Category where
  | decimal
  | blank
  | wordChar
deriving DecidableEq

/-- A member of a set in square brackets. -/
inductive SetItem where
  | char (c : Char)
  | range (first last : Nat)
  | category (k : Category) (ascii negated : Bool)
deriving DecidableEq

/-- A place that takes up no text. -/
inductive Edge where
  | textStart
  | lineStart
  | textEnd
  | lastLineEnd
  | lineEnd
  | wordEdge (ascii : Bool)
  | noWordEdge (ascii : Bool)
deriving DecidableEq

/-- Which number of repetitions is tried first, and whether others are tried at all. -/
inductive Greed where
  | greedy
  | lazy
  | possessive
deriving DecidableEq

/-- The parts of a regular expression. -/
inductive Pattern where
  | empty
  | char (c : Char) (rule : CaseRule)
  | set (items : List SetItem) (negated : Bool) (rule : CaseRule)
  | any (dotAll : Bool)
  | edge (e : Edge)
  | seq (first second : Pattern)
  | alt (first second : Pattern)
  | rep (least : Nat) (most : Option Nat) (greed : Greed) (body : Pattern)
  | group (index : Nat) (body : Pattern)
  | same (index : Nat) (rule : CaseRule)
  | atomic (body : Pattern)
  | ahead (negated : Bool) (body : Pattern)
  | behind (width : Nat) (negated : Bool) (body : Pattern)
  | given (index : Nat) (yes no : Pattern)
deriving DecidableEq

/-! ## Classes of characters -/

/-- Whether a character is an ASCII word character. -/
def isAsciiWordChar (c : Char) : Bool :=
  c.isAlphanum || c == '_'

/-- Whether a character belongs to a named class. -/
def Category.contains (k : Category) (ascii : Bool) (c : Char) : Bool :=
  match k, ascii with
  | .decimal, true => c.isDigit
  | .decimal, false => Text.isDecimal c
  | .blank, true => c == ' ' || (0x9 ≤ c.toNat && c.toNat ≤ 0xd)
  | .blank, false => Text.isBlank c
  | .wordChar, true => isAsciiWordChar c
  | .wordChar, false => Text.isWordChar c

/-- The lower-case form of a character, as far as a rule knows case. -/
def CaseRule.fold : CaseRule → Char → Char
  | .exact, c => c
  | .ascii, c => c.toLower
  | .unicode, c => Text.lower c

/-- Whether `c` matches the character `wanted`. -/
def CaseRule.agree (rule : CaseRule) (wanted c : Char) : Bool :=
  match rule with
  | .unicode => Text.sameUpToCase wanted c
  | _ => rule.fold wanted == rule.fold c

/-- The characters that `c` matches. -/
def CaseRule.orbit : CaseRule → Char → List Char
  | .exact, c => [c]
  | .ascii, c => [c.toLower, c.toUpper]
  | .unicode, c => Text.caseOrbit c

/-- Whether a character belongs to a member of a set. -/
def SetItem.contains (rule : CaseRule) (c : Char) : SetItem → Bool
  | .char w => rule.agree w c
  | .range first last => (rule.orbit c).any fun d => first ≤ d.toNat && d.toNat ≤ last
  | .category k ascii negated => k.contains ascii (rule.fold c) != negated

/-! ## Widths -/

/-- The least number of characters that something takes up, and the greatest if there is one. -/
structure Width where
  least : Nat
  most : Option Nat
deriving DecidableEq

namespace Width

/-- The width of `n` characters. -/
def exactly (n : Nat) : Width := ⟨n, some n⟩

/-- The width of two things, one behind the other. -/
def add (a b : Width) : Width :=
  ⟨a.least + b.least, match a.most, b.most with
    | some m, some n => some (m + n)
    | _, _ => none⟩

/-- The width of one of two things. -/
def join (a b : Width) : Width :=
  ⟨min a.least b.least, match a.most, b.most with
    | some m, some n => some (max m n)
    | _, _ => none⟩

/-- The width of a repetition. -/
def times (a : Width) (least : Nat) (most : Option Nat) : Width :=
  ⟨a.least * least, match a.most, most with
    | some 0, _ => some 0
    | some m, some n => some (m * n)
    | _, _ => none⟩

end Width

/-- The width of a pattern, given those of the groups. -/
def Pattern.width (groups : Nat → Width) : Pattern → Width
  | .empty | .edge _ | .ahead .. | .behind .. => .exactly 0
  | .char .. | .set .. | .any _ => .exactly 1
  | .seq p q => (p.width groups).add (q.width groups)
  | .alt p q => (p.width groups).join (q.width groups)
  | .rep least most _ p => (p.width groups).times least most
  | .group _ p | .atomic p => p.width groups
  | .same i _ => groups i
  | .given _ p q => (p.width groups).join (q.width groups)

end PixelUnit.Regex
