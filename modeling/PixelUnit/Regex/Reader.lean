import PixelUnit.Regex.Fault
import PixelUnit.Regex.Flags
import PixelUnit.Regex.Pattern
import PixelUnit.Regex.Warning
import PixelUnit.Text.Identifiers
import PixelUnit.Text.Integers

/-!
# Reading regular expressions

An expression is first cut into pieces, single characters and backslash pairs, and then read from
left to right. Every function that reads a repetition of something has a number that it counts
down; the number of pieces is enough for all of them, since each round takes up a piece.

A character can be given by its name. Which names there are is not said here (`CharacterNames`).
-/

namespace PixelUnit.Regex

/-- The names of characters. -/
class CharacterNames where
  /-- The character with a given name, if there is one. -/
  find? : String → Option Char

/-- No character has a name. -/
abbrev CharacterNames.none : CharacterNames where
  find? _ := .none

/-- A character, or a backslash with the character behind it. -/
inductive Piece where
  | char (c : Char)
  | escape (c : Char)
deriving DecidableEq

/-- The characters of a piece. -/
def Piece.chars : Piece → List Char
  | .char c => [c]
  | .escape c => ['\\', c]

/-- The pieces of an expression, and whether a backslash is left over at its end. -/
def pieces : List Char → List Piece × Bool
  | [] => ([], false)
  | ['\\'] => ([], true)
  | '\\' :: c :: r =>
    let (ps, dangling) := pieces r
    (.escape c :: ps, dangling)
  | c :: r =>
    let (ps, dangling) := pieces r
    (.char c :: ps, dangling)

/-- Where the reading of an expression stands. -/
structure Reading where
  /-- The pieces that are left. -/
  rest : List Piece
  /-- The index of the first character that is left. -/
  index : Nat
  /-- Whether a lone backslash follows the last piece. -/
  dangling : Bool
  /-- The flags that hold for the whole expression. -/
  flags : Flags
  /-- Whether the flag that stands for the wide classes was given. -/
  wide : Bool := false
  /-- The widths of the groups by number; an open group has none. -/
  widths : List (Option Width) := [none]
  /-- The named groups. -/
  names : List (String × Nat) := []
  /-- Inside a look-behind, the number of groups that came before it. -/
  behind : Option Nat := none
  /-- The groups that conditions ask for by number, and where they first do. -/
  asked : List (Nat × Nat) := []
  /-- What has been warned of so far. -/
  warnings : List Warning := []

/-- The width of a group, as far as it is known. -/
def Reading.widthOfGroup (s : Reading) (index : Nat) : Width :=
  (s.widths[index]?.bind id).getD (.exactly 0)

/-- Reading steps. -/
abbrev Reader := EStateM Fault Reading

namespace Reader

/-- Ends the reading with a fault `offset` characters before the place reached. -/
def fail {α : Type} (cause : Fault.Cause) (offset : Nat) : Reader α := do
  throw ⟨cause, some ((← get).index - offset)⟩

/-- Ends the reading with a fault at a given character. -/
def failAt {α : Type} (cause : Fault.Cause) (index : Nat) : Reader α :=
  throw ⟨cause, some index⟩

/-- Warns of something at a given character. -/
def warn (cause : Warning.Cause) (index : Nat) : Reader Unit :=
  modify fun s => { s with warnings := s.warnings ++ [⟨cause, index⟩] }

/-- Stops at a backslash that nothing follows. -/
def checkEnd : Reader Unit := do
  let s ← get
  if s.rest.isEmpty && s.dangling then failAt .danglingEscape s.index

/-- The next piece, left in place. -/
def peek : Reader (Option Piece) := do
  return (← get).rest.head?

/-- The next piece. -/
def take : Reader (Option Piece) := do
  let s ← get
  match s.rest with
  | [] => return none
  | p :: r =>
    set { s with rest := r, index := s.index + p.chars.length }
    checkEnd
    return some p

/-- Takes the next piece if it is a given character. -/
def accept (c : Char) : Reader Bool := do
  if (← peek) == some (.char c) then
    let _ ← take
    return true
  return false

/-- Takes up to `n` characters of a class. -/
def takeWhile (p : Char → Bool) : Nat → Reader (List Char)
  | 0 => return []
  | n + 1 => do
    match ← peek with
    | some (.char c) =>
      if p c then
        let _ ← take
        return c :: (← takeWhile p n)
      return []
    | _ => return []

/-- The text up to a terminator, which is taken too. -/
def takeUntil (terminator : Char) (what : String) : Nat → List Char → Reader (List Char)
  | 0, _ => fail .endOfPattern 0
  | n + 1, taken => do
    match ← take with
    | none =>
      if taken.isEmpty then fail (.missingName what) 0
      else fail (.unterminatedName terminator) taken.length
    | some p =>
      if p == .char terminator then
        if taken.isEmpty then fail (.missingName what) 1
        return taken
      takeUntil terminator what n (taken ++ p.chars)

end Reader

open Reader

variable [CharacterNames]

/-! ## Characters by number -/

/-- Whether a character is an octal digit. -/
def isOctal (c : Char) : Bool :=
  '0' ≤ c && c ≤ '7'

/-- Whether a character is a hexadecimal digit. -/
def isHexadecimal (c : Char) : Bool :=
  c.isDigit || ('a' ≤ c && c ≤ 'f') || ('A' ≤ c && c ≤ 'F')

/-- The value of a digit. -/
def digitValue (c : Char) : Nat :=
  if c.isDigit then c.toNat - '0'.toNat
  else if 'a' ≤ c && c ≤ 'f' then c.toNat - 'a'.toNat + 10
  else c.toNat - 'A'.toNat + 10

/-- The value of a list of digits. -/
def numberOf (base : Nat) (cs : List Char) : Nat :=
  cs.foldl (fun n c => n * base + digitValue c) 0

/-! ## Escapes -/

/-- What a backslash pair or a longer escape stands for. -/
inductive Escape where
  | code (n : Nat)
  | category (k : Category) (negated : Bool)
  | edge (e : Edge)
  | group (index : Nat)

/-- The control characters with letters of their own. -/
def controlCode? : Char → Option Nat
  | 'a' => some 7
  | 'b' => some 8
  | 'f' => some 12
  | 'n' => some 10
  | 'r' => some 13
  | 't' => some 9
  | 'v' => some 11
  | '\\' => some '\\'.toNat
  | _ => none

/-- The named classes and their opposites. -/
def category? : Char → Option (Category × Bool)
  | 'd' => some (.decimal, false)
  | 'D' => some (.decimal, true)
  | 's' => some (.blank, false)
  | 'S' => some (.blank, true)
  | 'w' => some (.wordChar, false)
  | 'W' => some (.wordChar, true)
  | _ => none

/-- The edges with letters of their own. -/
def edge? (flags : Flags) : Char → Option Edge
  | 'A' => some .textStart
  | 'Z' => some .textEnd
  | 'b' => some (.wordEdge flags.ascii)
  | 'B' => some (.noWordEdge flags.ascii)
  | _ => none

/-- The character whose code point follows in `width` hexadecimal digits. -/
def readHexadecimal (letter : Char) (width : Nat) : Reader Nat := do
  let digits ← takeWhile isHexadecimal width
  let text := '\\' :: letter :: digits
  if digits.length < width then fail (.incompleteEscape (String.ofList text)) text.length
  let n := numberOf 16 digits
  if 0x110000 ≤ n then fail (.badEscape (String.ofList text)) text.length
  return n

/-- A character by its name. -/
def readNamed (fuel : Nat) : Reader Nat := do
  unless ← accept '\x7b' do fail .missingBrace 0
  let name ← takeUntil '\x7d' "character name" fuel []
  match CharacterNames.find? (String.ofList name) with
  | some c => return c.toNat
  | none => fail (.unknownCharacterName (String.ofList name)) (name.length + 4)

/-- The escapes that mean the same inside and outside a set; others are refused. -/
def readCommonEscape (fuel : Nat) (c : Char) : Reader Nat := do
  if c == 'x' then readHexadecimal c 2
  else if c == 'u' then readHexadecimal c 4
  else if c == 'U' then readHexadecimal c 8
  else if c == 'N' then readNamed fuel
  else if c.isAlpha || c.isDigit then fail (.badEscape (String.ofList ['\\', c])) 2
  else return c.toNat

/-- The escape `\c` inside a set. -/
def readSetEscape (fuel : Nat) (c : Char) : Reader Escape := do
  if let some n := controlCode? c then return .code n
  if let some (k, negated) := category? c then return .category k negated
  if isOctal c then
    let digits := c :: (← takeWhile isOctal 2)
    if 0o377 < numberOf 8 digits then
      fail (.octalTooLarge (String.ofList ('\\' :: digits))) (digits.length + 1)
    return .code (numberOf 8 digits)
  return .code (← readCommonEscape fuel c)

/-- Checks that a group can be referred to from where the reading stands. -/
def checkGroup (index : Nat) : Reader Unit := do
  let s ← get
  if let some limit := s.behind then
    unless (s.widths[index]?.bind id).isSome do fail .openGroup 0
    if limit ≤ index then fail .groupBehind 0

/-- A reference to a group by number; `length` is that of its text. -/
def readReference (index length : Nat) : Reader Escape := do
  match (← get).widths[index]? with
  | none => fail (.unknownGroup index) (length - 1)
  | some none => fail .openGroup length
  | some (some _) =>
    checkGroup index
    return .group index

/-- The escape `\c` outside a set. -/
def readEscape (fuel : Nat) (flags : Flags) (c : Char) : Reader Escape := do
  if let some (k, negated) := category? c then return .category k negated
  if let some e := edge? flags c then return .edge e
  if let some n := controlCode? c then return .code n
  if c == '0' then return .code (numberOf 8 (← takeWhile isOctal 2))
  if c.isDigit then
    match ← takeWhile Char.isDigit 1 with
    | [] => readReference (digitValue c) 2
    | d :: _ =>
      let third ← if isOctal c && isOctal d then takeWhile isOctal 1 else pure []
      match third with
      | [] => readReference (numberOf 10 [c, d]) 3
      | e :: _ =>
        let n := numberOf 8 [c, d, e]
        if 0o377 < n then fail (.octalTooLarge (String.ofList ['\\', c, d, e])) 4
        return .code n
  else return .code (← readCommonEscape fuel c)

/-! ## Sets -/

/-- The case rule that flags ask for. -/
def Flags.caseRule (f : Flags) : CaseRule :=
  if !f.ignoreCase then .exact else if f.ascii then .ascii else .unicode

/-- A code point as a member of a set. -/
def SetItem.ofCode (n : Nat) : SetItem :=
  if n.isValidChar then .char (Char.ofNat n) else .range n n

/-- An escape as a member of a set. -/
def Escape.toSetItem (ascii : Bool) : Escape → SetItem
  | .code n => .ofCode n
  | .category k negated => .category k ascii negated
  | .edge _ | .group _ => .range 1 0

/-- A member of a set, or one end of a range in it. -/
def readSetEnd (fuel : Nat) : Piece → Reader Escape
  | .char c => return .code c.toNat
  | .escape c => readSetEscape fuel c

/-- Warns of a sign that combines sets, `offset` characters before the place reached, if it is
doubled. -/
def warnOfSign (sign : Piece) (doubled : Bool) (offset : Nat) : Reader Unit := do
  if let .char c := sign then
    if let some cause := Warning.Cause.ofSign? c then
      if doubled then warn cause ((← get).index - offset)

/-- The members of a set up to its closing bracket; `here` is the index of the opening one. -/
def readSetItems (ascii : Bool) (here : Nat) : Nat → List SetItem → Reader (List SetItem)
  | 0, _ => failAt .unterminatedSet here
  | n + 1, items => do
    let some this ← take | failAt .unterminatedSet here
    if this == .char ']' && !items.isEmpty then return items
    warnOfSign this (!items.isEmpty && (← peek) == some this) 1
    let first ← readSetEnd n this
    unless ← accept '-' do
      return ← readSetItems ascii here n (items ++ [first.toSetItem ascii])
    let some that ← take | failAt .unterminatedSet here
    if that == .char ']' then return items ++ [first.toSetItem ascii, .char '-']
    warnOfSign that (that == .char '-') 2
    let last ← readSetEnd n that
    let bad := Fault.Cause.badRange (String.ofList this.chars) (String.ofList that.chars)
    let offset := this.chars.length + 1 + that.chars.length
    match first, last with
    | .code a, .code b =>
      if b < a then fail bad offset
      readSetItems ascii here n (items ++ [.range a b])
    | _, _ => fail bad offset

/-- A set from behind its opening bracket. -/
def readSet (fuel : Nat) (flags : Flags) : Reader Pattern := do
  let start := (← get).index
  if (← peek) == some (.char '[') then warn .nestedSet start
  let here := start - 1
  let negated ← accept '^'
  let items ← readSetItems flags.ascii here fuel []
  return .set items negated flags.caseRule

/-- A code point as a pattern; one that no text holds matches nothing. -/
def Pattern.ofCode (flags : Flags) (n : Nat) : Pattern :=
  if n.isValidChar then .char (Char.ofNat n) flags.caseRule else .set [] false .exact

/-- An escape as a pattern. -/
def Escape.toPattern (flags : Flags) : Escape → Pattern
  | .code n => .ofCode flags n
  | .category k negated => .set [.category k flags.ascii negated] false flags.caseRule
  | .edge e => .edge e
  | .group i => .same i flags.caseRule

/-! ## Repetitions -/

/-- The bounds of a repetition. -/
structure Bounds where
  least : Nat
  most : Option Nat

/-- The least number of repetitions that cannot be asked for. -/
def repeatLimit : Nat := 4294967295

/-- A bound by its digits, if there are any. -/
def readBound (digits : List Char) : Reader (Option Nat) := do
  if digits.isEmpty then return none
  if Text.integerLimit < digits.length then fail .numberTooLong 0
  let n := numberOf 10 digits
  if repeatLimit ≤ n then fail .tooManyRepeats 0
  return some n

/-- Bounds from behind their opening brace. What is not closed properly is no repetition, and the
brace stands for itself. -/
def readBounds (fuel : Nat) : Reader (Option Bounds) := do
  let start ← get
  if (← peek) == some (.char '\x7d') then return none
  let low ← takeWhile Char.isDigit fuel
  let high ← if ← accept ',' then takeWhile Char.isDigit fuel else pure low
  unless ← accept '\x7d' do
    set start
    return none
  let least := (← readBound low).getD 0
  let most ← readBound high
  if most.any (· < least) then
    failAt .boundsSwapped start.index
  return some ⟨least, most⟩

/-- The bounds that a sign of repetition stands for. -/
def readRepeat (fuel : Nat) : Char → Reader (Option Bounds)
  | '?' => return some ⟨0, some 1⟩
  | '*' => return some ⟨0, none⟩
  | '+' => return some ⟨1, none⟩
  | _ => readBounds fuel

/-- Something read, and whether it stood in parentheses. -/
structure Item where
  pattern : Pattern
  grouped : Bool

/-- The sign behind a repetition, if there is one. -/
def readGreed : Reader Greed := do
  if ← accept '?' then return .lazy
  if ← accept '+' then return .possessive
  return .greedy

/-- The last item, repeated; `here` is the index of the sign of repetition. -/
def repeatLast (here : Nat) (b : Bounds) : List Item → Reader (List Item)
  | [] => failAt .nothingToRepeat here
  | item :: items => do
    match item.grouped, item.pattern with
    | false, .edge _ => failAt .nothingToRepeat here
    | false, .rep .. => failAt .repeatedRepeat here
    | _, p =>
      return ⟨.rep b.least b.most (← readGreed) p, false⟩ :: items

/-- Items, last one first, as one pattern. -/
def Pattern.ofItems : List Item → Pattern
  | [] => .empty
  | item :: items => items.foldl (fun p i => .seq i.pattern p) item.pattern

/-! ## Flags inside an expression -/

/-- Flags turned on or off, and whether they bear on the classes of characters. -/
structure FlagSet where
  flags : Flags := {}
  ascii : Bool := false
  wide : Bool := false

/-- Adds the flag of a letter. -/
def FlagSet.add? (s : FlagSet) (c : Char) : Option FlagSet :=
  match Flags.ofLetter? c, c with
  | some f, _ => some { s with flags := s.flags.union f }
  | none, 'a' => some { s with ascii := true }
  | none, 'u' => some { s with wide := true }
  | none, 't' => some { s with flags := { s.flags with template := true } }
  | none, 'L' => some s
  | none, _ => none

/-- Whether a piece is a single letter. -/
def Piece.isLetter : Piece → Bool
  | .char c => Text.isLetter c
  | .escape _ => false

/-- The flags to turn on, starting with the letter `c`, and the character that ends them. -/
def readFlagsOn : Nat → FlagSet → Char → Reader (FlagSet × Char)
  | 0, _, _ => fail .endOfPattern 0
  | n + 1, on, c => do
    if c == 'L' then fail .localeFlag 0
    let some on := on.add? c | fail .unknownFlag 1
    if on.ascii && on.wide then fail .incompatibleFlags 0
    let some p ← take | fail (.missing "-, : or )") 0
    match p with
    | .char d =>
      if d == ')' || d == '-' || d == ':' then return (on, d)
      if (on.add? d).isSome then readFlagsOn n on d
      else fail (if p.isLetter then .unknownFlag else .missing "-, : or )") 1
    | .escape _ => fail (.missing "-, : or )") 2

/-- The flags to turn off, starting with the letter `c`. -/
def readFlagsOff : Nat → FlagSet → Char → Reader FlagSet
  | 0, _, _ => fail .endOfPattern 0
  | n + 1, off, c => do
    if c == 'a' || c == 'u' || c == 'L' then fail .typeFlagOff 0
    let some off := off.add? c | fail .unknownFlag 1
    let some p ← take | fail (.missing ":") 0
    match p with
    | .char d =>
      if d == ':' then return off
      if (off.add? d).isSome then readFlagsOff n off d
      else fail (if p.isLetter then .unknownFlag else .missing ":") 1
    | .escape _ => fail (.missing ":") 2

/-- Flags inside an expression from their first letter or sign. They hold for the whole expression,
and then nothing is returned, or for one group, and then the flags in it are. -/
def readFlags (fuel : Nat) (flags : Flags) (c : Char) : Reader (Option Flags) := do
  let (on, sign) ← if c == '-' then pure (({} : FlagSet), '-') else readFlagsOn fuel {} c
  if sign == ')' then
    modify fun s =>
      let all := s.flags.union on.flags
      { s with flags := { all with ascii := all.ascii || on.ascii }, wide := s.wide || on.wide }
    return none
  if on.flags.template then fail .globalFlagOn 1
  let off ← if sign == '-' then do
      let some p ← take | fail (.missing "flag") 0
      match p with
      | .char d =>
        if (({} : FlagSet).add? d).isSome then readFlagsOff fuel {} d
        else fail (if p.isLetter then .unknownFlag else .missing "flag") 1
      | .escape _ => fail (.missing "flag") 2
    else pure {}
  if off.flags.template then fail .globalFlagOff 1
  let both := on.flags.without (on.flags.without off.flags)
  if both != {} then fail .flagOnAndOff 1
  let all := (flags.union on.flags).without off.flags
  return some { all with ascii := if on.wide then false else all.ascii || on.ascii }

/-! ## Groups -/

/-- The least number that no group can have. -/
def groupLimit : Nat := 1073741823

/-- Checks that a text can name a group. -/
def checkName (cs : List Char) : Reader Unit := do
  unless Text.isIdentifier cs do fail (.badGroupName (String.ofList cs)) (cs.length + 1)

/-- The number of a group by its name. -/
def groupNamed (cs : List Char) : Reader Nat := do
  match (← get).names.find? (·.1 == String.ofList cs) with
  | some (_, i) => return i
  | none => fail (.unknownGroupName (String.ofList cs)) (cs.length + 1)

/-- Opens a group and gives it the next number. -/
def openGroup (name : Option (List Char)) : Reader Nat := do
  let s ← get
  let index := s.widths.length
  if let some cs := name then
    let text := String.ofList cs
    if let some (_, previous) := s.names.find? (·.1 == text) then
      fail (.groupNamedTwice text index previous) (cs.length + 1)
    set { s with widths := s.widths ++ [none], names := s.names ++ [(text, index)] }
  else set { s with widths := s.widths ++ [none] }
  return index

/-- The width of a pattern, as far as the groups are known. -/
def widthOf (p : Pattern) : Reader Width := do
  return p.width (← get).widthOfGroup

/-- Closes a group that has matched `p`. -/
def closeGroup (index : Nat) (p : Pattern) : Reader Unit := do
  let w ← widthOf p
  modify fun s => { s with widths := s.widths.set index (some w) }

/-- The closing parenthesis of a group that was opened at `start`. -/
def closeParen (start : Nat) : Reader Unit := do
  unless ← accept ')' do failAt .unterminatedGroup start

/-- The group that a condition asks for, by its name or its number. -/
def readCondition (fuel : Nat) : Reader Nat := do
  let name ← takeUntil ')' "group name" fuel []
  if Text.isIdentifier name then groupNamed name
  else
    let some (.ofNat index) := Text.integer? name
      | fail (.badGroupName (String.ofList name)) (name.length + 1)
    if index == 0 then fail .badGroupNumber (name.length + 1)
    if groupLimit ≤ index then fail (.unknownGroup index) (name.length + 1)
    modify fun s =>
      if s.asked.any (·.1 == index) then s
      else { s with asked := s.asked ++ [(index, s.index - name.length - 1)] }
    return index

/-- A comment from behind its sign; `start` is the index of its parenthesis. -/
def skipGroupComment (start : Nat) : Nat → Reader Unit
  | 0 => failAt .unterminatedComment start
  | n + 1 => do
    match ← peek with
    | none => failAt .unterminatedComment start
    | some _ =>
      if (← take) == some (.char ')') then return
      skipGroupComment start n

/-- A comment of a verbose expression: up to the end of its line. -/
def skipLine : Nat → Reader Unit
  | 0 => return
  | n + 1 => do
    match ← take with
    | none => return
    | some p => if p == .char '\n' then return else skipLine n

/-- What stands at the start of a parenthesis. -/
inductive Opening where
  | capturing (name : Option (List Char))
  | grouping (flags : Flags)
  | atomic
  | look (behind negated : Bool)
  | condition (index : Nat)
  | reference (index : Nat)
  | nothing
  | flags

/-- The sign of a parenthesis, from behind it; `start` is its index. -/
def readOpening (fuel start : Nat) (flags : Flags) : Reader Opening := do
  unless ← accept '?' do return .capturing none
  let some p ← take | fail .endOfPattern 0
  match p with
  | .char 'P' =>
    if ← accept '<' then
      let name ← takeUntil '>' "group name" fuel []
      checkName name
      return .capturing (some name)
    if ← accept '=' then
      let name ← takeUntil ')' "group name" fuel []
      checkName name
      let index ← groupNamed name
      if ((← get).widths[index]?.bind id).isNone then fail .openGroup (name.length + 1)
      checkGroup index
      return .reference index
    let some q ← take | fail .endOfPattern 0
    fail (.unknownExtension ("?P" ++ String.ofList q.chars)) (q.chars.length + 2)
  | .char ':' => return .grouping flags
  | .char '#' =>
    skipGroupComment start fuel
    return .nothing
  | .char '=' => return .look false false
  | .char '!' => return .look false true
  | .char '<' =>
    let some q ← take | fail .endOfPattern 0
    match q with
    | .char '=' => return .look true false
    | .char '!' => return .look true true
    | _ => fail (.unknownExtension ("?<" ++ String.ofList q.chars)) (q.chars.length + 2)
  | .char '(' =>
    let index ← readCondition fuel
    checkGroup index
    return .condition index
  | .char '>' => return .atomic
  | .char c =>
    if c == '-' || c == 'L' || (({} : FlagSet).add? c).isSome then
      match ← readFlags fuel flags c with
      | some inner => return .grouping inner
      | none => return .flags
    fail (.unknownExtension ("?" ++ c.toString)) 2
  | .escape c => fail (.unknownExtension (String.ofList ['?', '\\', c])) 3

/-! ## Expressions -/

mutual

/-- Alternatives up to a closing parenthesis or the end. In the outermost ones the flags that hold
for the whole expression hold from one alternative to the next. -/
def readAlternatives : Nat → Flags → Bool → Reader Pattern
  | 0, _, _ => fail .endOfPattern 0
  | n + 1, flags, outermost => do
    let first ← readSequence n flags outermost []
    readMoreAlternatives n flags outermost first

/-- The alternatives behind the first one. -/
def readMoreAlternatives : Nat → Flags → Bool → Pattern → Reader Pattern
  | 0, _, _, _ => fail .endOfPattern 0
  | n + 1, flags, outermost, first => do
    unless ← accept '|' do return first
    let s ← get
    let flags := if outermost then s.flags else flags
    let second ← readSequence n flags false []
    return .alt first (← readMoreAlternatives n flags outermost second)

/-- Items up to a bar, a closing parenthesis or the end. Flags for the whole expression can stand
only before all else. -/
def readSequence : Nat → Flags → Bool → List Item → Reader Pattern
  | 0, _, _, _ => fail .endOfPattern 0
  | n + 1, flags, outermost, items => do
    match ← peek with
    | none | some (.char '|') | some (.char ')') => return .ofItems items
    | some (.escape c) =>
      let _ ← take
      let e ← readEscape n flags c
      readSequence n flags outermost (⟨e.toPattern flags, false⟩ :: items)
    | some (.char c) =>
      let here := (← get).index
      let _ ← take
      if flags.verbose && (c == ' ' || (0x9 ≤ c.toNat && c.toNat ≤ 0xd)) then
        readSequence n flags outermost items
      else if flags.verbose && c == '#' then
        skipLine n
        readSequence n flags outermost items
      else if c == '[' then
        let p ← readSet n flags
        readSequence n flags outermost (⟨p, false⟩ :: items)
      else if c == '?' || c == '*' || c == '+' || c == '\x7b' then
        match ← readRepeat n c with
        | some b =>
          let items ← repeatLast here b items
          readSequence n flags outermost items
        | none =>
          readSequence n flags outermost (⟨.ofCode flags c.toNat, false⟩ :: items)
      else if c == '(' then
        let opening ← readOpening n here flags
        match opening with
        | .nothing => readSequence n flags outermost items
        | .flags =>
          unless outermost && items.isEmpty do failAt .lateFlags here
          readSequence n (← get).flags outermost items
        | opening =>
          let item ← readGroup n here flags opening
          readSequence n flags outermost (item :: items)
      else
        let p : Pattern :=
          if c == '.' then .any flags.dotAll
          else if c == '^' then .edge (if flags.multiLine then .lineStart else .textStart)
          else if c == '$' then .edge (if flags.multiLine then .lineEnd else .lastLineEnd)
          else .ofCode flags c.toNat
        readSequence n flags outermost (⟨p, false⟩ :: items)

/-- A parenthesis from behind its sign. -/
def readGroup : Nat → Nat → Flags → Opening → Reader Item
  | 0, _, _, _ => fail .endOfPattern 0
  | n + 1, start, flags, opening => do
    match opening with
    | .capturing name =>
      let index ← openGroup name
      let p ← readAlternatives n flags false
      closeParen start
      closeGroup index p
      return ⟨.group index p, true⟩
    | .grouping inner =>
      let p ← readAlternatives n inner false
      closeParen start
      return ⟨p, true⟩
    | .atomic =>
      let p ← readAlternatives n flags false
      closeParen start
      return ⟨.atomic p, true⟩
    | .look true negated =>
      let outer := (← get).behind
      modify fun s => { s with behind := s.behind.or (some s.widths.length) }
      let p ← readAlternatives n flags false
      modify fun s => { s with behind := outer }
      closeParen start
      let w ← widthOf p
      return ⟨.behind w.least negated p, true⟩
    | .look false negated =>
      let p ← readAlternatives n flags false
      closeParen start
      return ⟨.ahead negated p, true⟩
    | .condition index =>
      let yes ← readSequence n flags false []
      let no ← if ← accept '|' then readSequence n flags false [] else pure .empty
      if (← peek) == some (.char '|') then fail .thirdBranch 0
      closeParen start
      return ⟨.given index yes no, true⟩
    | .reference index => return ⟨.same index flags.caseRule, true⟩
    | .nothing | .flags => return ⟨.empty, true⟩

end

/-- The greatest width of a look-behind. -/
def behindLimit : Nat := 4294967295

/-- The name of a repetition, as a message about it gives it. -/
def Greed.name : Greed → String
  | .greedy => "MAX_REPEAT"
  | .lazy => "MIN_REPEAT"
  | .possessive => "POSSESSIVE_REPEAT"

/-- The first part of a pattern that cannot be matched, given the widths of the groups: a
look-behind without a fixed width, or a repetition where nothing can be repeated. -/
def Pattern.fault? (flags : Flags) (groups : Nat → Width) : Pattern → Option Fault.Cause
  | .rep _ _ greed p =>
    if flags.template then some (.repeatInTemplate greed.name) else p.fault? flags groups
  | .behind _ _ p =>
    let w := p.width groups
    if behindLimit < w.least then some .farLookBehind
    else if w.most != some w.least then some .variableLookBehind
    else p.fault? flags groups
  | .seq p q | .alt p q | .given _ p q => (p.fault? flags groups).or (q.fault? flags groups)
  | .group _ p | .atomic p | .ahead _ p => p.fault? flags groups
  | _ => none

/-- A whole expression. -/
def readAll (fuel : Nat) (flags : Flags) : Reader Pattern := do
  checkEnd
  let p ← readAlternatives fuel flags true
  let s ← get
  if s.flags.ascii && s.wide then throw ⟨.clashingFlags, none⟩
  if (← peek).isSome then fail .unbalancedGroup 0
  if let some (index, place) := s.asked.find? (s.widths.length ≤ ·.1) then
    failAt (.unknownGroup index) place
  if let some cause := p.fault? s.flags s.widthOfGroup then throw ⟨cause, none⟩
  return p

/-- The pattern that an expression stands for, with all flags that hold for the whole of it, and
what was warned of while it was read. -/
def readPattern (source : List Char) (flags : Flags) :
    Except Fault (Pattern × Flags) × List Warning :=
  let (ps, dangling) := pieces source
  let start : Reading := { rest := ps, index := 0, dangling, flags }
  match (readAll (4 * ps.length + 8) flags).run start with
  | .ok p s => (.ok (p, s.flags), s.warnings)
  | .error e s => (.error e, s.warnings)

end PixelUnit.Regex
