import PixelUnit.Text.Blank
import PixelUnit.Text.Digits

/-!
# Integers in texts

A text stands for an integer if it is made up of decimals, of one system or of several, with single
underscores between them if at all, a sign in front and white space at either end. One that is too
long is not read.
-/

namespace PixelUnit.Text

/-- The greatest number of digits that an integer is read with. -/
def integerLimit : Nat := 4300

/-- The decimals in a text, between which single underscores may stand. -/
def decimals? : List Char → Option (List Nat)
  | [] => none
  | [c] => (decimalValue? c).map ([·])
  | c :: '_' :: r => do return (← decimalValue? c) :: (← decimals? r)
  | c :: r => do return (← decimalValue? c) :: (← decimals? r)

/-- Whether a character can stand around an integer: the separators of ASCII cannot. -/
def isPadding (c : Char) : Bool :=
  isBlank c && !(0x1c ≤ c.toNat && c.toNat ≤ 0x1f)

/-- The integer that a text stands for. -/
def integer? (cs : List Char) : Option Int := do
  let (negative, digits) := match trimBy isPadding cs with
    | '-' :: r => (true, r)
    | '+' :: r => (false, r)
    | r => (false, r)
  let ds ← decimals? digits
  if integerLimit < ds.length then none
  let n : Nat := ds.foldl (fun n d => n * 10 + d) 0
  return if negative then -(n : Int) else n
where
  /-- The text without the characters of a class at either end. -/
  trimBy (p : Char → Bool) (cs : List Char) : List Char :=
    ((cs.dropWhile p).reverse.dropWhile p).reverse

end PixelUnit.Text
