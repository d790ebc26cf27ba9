import PixelUnit.Table
import PixelUnit.Value

/-!
# Reading JSON

A JSON text as a value. Of two entries with the same key the later value counts, in the earlier
place. `NaN`, `Infinity` and `-Infinity` are numbers. A number without fraction and exponent is an
integer of any size that is not too long; any other is the nearest floating-point number.

A string may name the halves of a surrogate pair by escapes of their own. A half that stands alone
is no character, so that there is no text for the string to be: such a text is given up.

Every function that reads something nested counts down a number; the length of the text is enough,
since each call takes up a character. Where a text is no JSON is told by how much of it is left.
-/

namespace PixelUnit.Json

/-! ## Faults -/

/-- What is wrong with a text. -/
inductive Fault.Cause where
  | value
  | key
  | colon
  | comma
  | extra
  | openString
  | control
  | escape
  | unicodeEscape
  | byteOrderMark
  | longInteger
  | halfPair
deriving DecidableEq

/-- A cause in words. -/
def Fault.Cause.message : Fault.Cause → String
  | .value => "Expecting value"
  | .key => "Expecting property name enclosed in double quotes"
  | .colon => "Expecting ':' delimiter"
  | .comma => "Expecting ',' delimiter"
  | .extra => "Extra data"
  | .openString => "Unterminated string starting at"
  | .control => "Invalid control character at"
  | .escape => "Invalid \\escape"
  | .unicodeEscape => "Invalid \\uXXXX escape"
  | .byteOrderMark => "Unexpected UTF-8 BOM (decode using utf-8-sig)"
  | .longInteger => "Integer with too many digits"
  | .halfPair => "Half of a surrogate pair"

/-- Something wrong, and how many characters are left where it shows. -/
structure Fault where
  cause : Fault.Cause
  left : Nat
deriving DecidableEq

/-- A fault of a text in words, with its line, its column and its index. -/
def Fault.message (source : List Char) (f : Fault) : String :=
  let index := source.length - f.left
  let passed := source.take index
  f.cause.message ++ ": line " ++ toString (passed.count '\n' + 1) ++ " column " ++
    toString ((passed.reverse.takeWhile (· != '\n')).length + 1) ++ " (char " ++
    toString index ++ ")"

/-- Something read and the text behind it, or a fault. -/
abbrev Found (α : Type) := Except Fault (α × List Char)

/-- The fault that shows where a text is left. -/
def failAt {α : Type} (cause : Fault.Cause) (rest : List Char) : Found α :=
  .error ⟨cause, rest.length⟩

/-! ## Gaps -/

/-- Whether a character may stand between the parts of a JSON text. -/
def isGap (c : Char) : Bool :=
  c == ' ' || c == '\t' || c == '\n' || c == '\r'

/-- The text from its first character that is no gap. -/
def skipGap (cs : List Char) : List Char :=
  cs.dropWhile isGap

/-! ## Numbers -/

/-- Beyond this power of ten a number is infinite or zero, whatever its digits. -/
def exponentLimit : Int := 400

/-- The floating-point number nearest to `m · 10 ^ e`. -/
def floatOf (negative : Bool) (m : Nat) (e : Int) : Float :=
  let size := e + (Nat.toDigits 10 m).length
  let x : Float :=
    if m == 0 || size < -exponentLimit then 0.0
    else if exponentLimit < size then 1.0 / 0.0
    else if 0 ≤ e then Float.ofScientific (m * Number.powerOfTen e.toNat) false 0
    else Float.ofScientific m true (-e).toNat
  if negative then -x else x

/-- The fraction of a number from its point, if digits follow the point. -/
def splitFraction : List Char → List Char × List Char
  | '.' :: r =>
    let digits := r.takeWhile Char.isDigit
    if digits.isEmpty then ([], '.' :: r) else (digits, r.dropWhile Char.isDigit)
  | cs => ([], cs)

/-- The exponent of a number from its letter, if it is complete. -/
def splitExponent (cs : List Char) : Option (Bool × List Char) × List Char :=
  match cs with
  | c :: r =>
    if c == 'e' || c == 'E' then
      let (negative, s) := match r with
        | '-' :: s => (true, s)
        | '+' :: s => (false, s)
        | s => (false, s)
      let digits := s.takeWhile Char.isDigit
      if digits.isEmpty then (none, cs) else (some (negative, digits), s.dropWhile Char.isDigit)
    else (none, cs)
  | [] => (none, cs)

/-- The value of decimal digits. -/
def numberOf (digits : List Char) : Nat :=
  Regex.numberOf 10 digits

/-- A number from behind its sign, if there is one. -/
def readNumber? (negative : Bool) (cs : List Char) : Option (Found Value) :=
  let whole := match cs with
    | '0' :: _ => ['0']
    | _ => cs.takeWhile Char.isDigit
  if whole.isEmpty then none
  else
    let (fraction, r) := splitFraction (cs.drop whole.length)
    let (exponent, r) := splitExponent r
    let m := numberOf (whole ++ fraction)
    match fraction.isEmpty, exponent with
    | true, none =>
      if Text.integerLimit < whole.length then some (failAt .longInteger cs)
      else some (.ok (.int (if negative then -(m : Int) else m), r))
    | _, none => some (.ok (.float (floatOf negative m (-(fraction.length : Int))), r))
    | _, some (down, digits) =>
      let e : Int := if down then -(numberOf digits : Int) else numberOf digits
      some (.ok (.float (floatOf negative m (e - fraction.length)), r))

/-! ## Strings -/

/-- Four hexadecimal digits. -/
def readUnit? : List Char → Option (Nat × List Char)
  | a :: b :: c :: d :: r =>
    if [a, b, c, d].all Regex.isHexadecimal then some (Regex.numberOf 16 [a, b, c, d], r) else none
  | _ => none

/-- The characters with escapes of their own. -/
def simpleEscape? : Char → Option Char
  | '"' => some '"'
  | '\\' => some '\\'
  | '/' => some '/'
  | 'b' => some '\x08'
  | 'f' => some '\x0c'
  | 'n' => some '\n'
  | 'r' => some '\r'
  | 't' => some '\t'
  | _ => none

/-- The character that starts with the unit `a`, which may be the first half of a pair whose other
half follows. -/
def readPair (a : Nat) (cs : List Char) : Found Char :=
  if 0xd800 ≤ a && a < 0xdc00 then
    match cs with
    | '\\' :: 'u' :: r =>
      match readUnit? r with
      | none => failAt .unicodeEscape ('u' :: r)
      | some (b, s) =>
        if 0xdc00 ≤ b && b < 0xe000 then
          .ok (Char.ofNat (0x10000 + (a - 0xd800) * 0x400 + (b - 0xdc00)), s)
        else failAt .halfPair cs
    | _ => failAt .halfPair cs
  else if a.isValidChar then .ok (Char.ofNat a, cs)
  else failAt .halfPair cs

/-- A string from behind its opening quote; `start` is how much was left at that quote. -/
def readString (start : Nat) : Nat → List Char → List Char → Found String
  | 0, _, _ => .error ⟨.openString, start⟩
  | _ + 1, _, [] => .error ⟨.openString, start⟩
  | _ + 1, _, ['\\'] => .error ⟨.openString, start⟩
  | n + 1, taken, '\\' :: 'u' :: r =>
    match readUnit? r with
    | none => failAt .unicodeEscape ('u' :: r)
    | some (a, s) =>
      match readPair a s with
      | .error e => .error e
      | .ok (c, t) => readString start n (c :: taken) t
  | n + 1, taken, '\\' :: c :: r =>
    match simpleEscape? c with
    | some d => readString start n (d :: taken) r
    | none => failAt .escape ('\\' :: c :: r)
  | n + 1, taken, c :: r =>
    if c == '"' then .ok (String.ofList taken.reverse, r)
    else if c.toNat < 0x20 then failAt .control (c :: r)
    else readString start n (c :: taken) r

/-! ## Values -/

/-- The text behind a given word, if it starts with that. -/
def afterWord? (word : List Char) (cs : List Char) : Option (List Char) :=
  if word.isPrefixOf cs then some (cs.drop word.length) else none

/-- The values that are written as words. -/
def words : List (List Char × Value) :=
  [("null".toList, .null), ("true".toList, .bool true), ("false".toList, .bool false),
    ("NaN".toList, .float (0.0 / 0.0)), ("Infinity".toList, .float (1.0 / 0.0)),
    ("-Infinity".toList, .float (-1.0 / 0.0))]

/-- The word or number at the front of a text. -/
def readPlain (cs : List Char) : Found Value :=
  let word := words.findSome? fun (word, v) => (afterWord? word cs).map (v, ·)
  let number := match cs with
    | '-' :: r => readNumber? true r
    | _ => readNumber? false cs
  match word, number with
  | some found, _ => .ok found
  | none, some found => found
  | none, none => failAt .value cs

mutual

/-- A value. -/
def readValue : Nat → List Char → Found Value
  | 0, cs => failAt .value cs
  | n + 1, cs =>
    match cs with
    | '"' :: r => (readString cs.length (r.length + 1) [] r).map fun (s, t) => (.text s, t)
    | '[' :: r =>
      match skipGap r with
      | ']' :: s => .ok (.list [], s)
      | s => readItems n [] s
    | '\x7b' :: r =>
      match skipGap r with
      | '\x7d' :: s => .ok (.mapping [], s)
      | s => readEntries n [] s
    | _ => readPlain cs

/-- The items of an array up to its closing bracket. -/
def readItems : Nat → List Value → List Char → Found Value
  | 0, _, cs => failAt .value cs
  | n + 1, items, cs =>
    match readValue n cs with
    | .error e => .error e
    | .ok (v, r) =>
      match skipGap r with
      | ',' :: s => readItems n (v :: items) (skipGap s)
      | ']' :: s => .ok (.list (v :: items).reverse, s)
      | s => failAt .comma s

/-- The entries of an object up to its closing brace. -/
def readEntries : Nat → List (String × Value) → List Char → Found Value
  | 0, _, cs => failAt .key cs
  | n + 1, entries, cs =>
    match cs with
    | '"' :: r =>
      match readString cs.length (r.length + 1) [] r with
      | .error e => .error e
      | .ok (key, s) =>
        match skipGap s with
        | ':' :: t =>
          match readValue n (skipGap t) with
          | .error e => .error e
          | .ok (v, u) =>
            match skipGap u with
            | ',' :: w => readEntries n (Table.put key v entries) (skipGap w)
            | '\x7d' :: w => .ok (.mapping (Table.put key v entries), w)
            | w => failAt .comma w
        | t => failAt .colon t
    | _ => failAt .key cs

end

/-- The value of a whole JSON text. -/
def read (cs : List Char) : Except Fault Value :=
  if cs.head? == some '\ufeff' then .error ⟨.byteOrderMark, cs.length⟩
  else
    match readValue (2 * cs.length + 2) (skipGap cs) with
    | .error e => .error e
    | .ok (v, r) =>
      let rest := skipGap r
      if rest.isEmpty then .ok v else .error ⟨.extra, rest.length⟩

end PixelUnit.Json
