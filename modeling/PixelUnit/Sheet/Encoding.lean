import PixelUnit.Log
import PixelUnit.Text.Blank
import PixelUnit.Text.Quoted

/-!
# Encodings

How the bytes of a stylesheet become text. A byte order mark means UTF-8 and is dropped. Otherwise
a rule `@charset "…";` at the very start names the encoding; the rule itself stays in the text.
Without one, and after a warning if the name is unknown, the bytes are UTF-8.

Five encodings are spelled out. What other names there are, and how the bytes are read then, is not
said here (`Codecs`).
-/

namespace PixelUnit.Sheet

/-- Why bytes give no text. -/
inductive Unreadable where
  /-- They are not well formed. -/
  | malformed
  /-- They give half of a surrogate pair without the other, which no text can have. -/
  | halfPair
deriving DecidableEq

/-- Ways to read bytes. -/
abbrev Decoder := ByteArray → Except Unreadable String

/-- The encodings beside those that are spelled out. -/
class Codecs where
  /-- How bytes are read in the encoding with a given name, if there is one. The name is in lower
  case and has no blanks around it. -/
  find? : String → Option Decoder

/-- No other encoding has a name. -/
abbrev Codecs.none : Codecs where
  find? _ := .none

/-- The encodings that are spelled out. -/
inductive Encoding where
  | utf8
  | ascii
  | latin1
  | windows1252
  | utf16le
deriving DecidableEq

namespace Encoding

/-! ## Names -/

/-- The names that encodings go by, in lower case and with one underscore between words. -/
def names : List (String × Encoding) :=
  [("utf_8", utf8), ("utf_8_sig", utf8), ("ascii", ascii), ("latin_1", latin1),
    ("cp1252", windows1252), ("utf_16_le", utf16le)]

/-- Other names of the encodings. -/
def aliases : List (String × Encoding) :=
  [("cp65001", utf8), ("u8", utf8), ("utf", utf8), ("utf8", utf8), ("utf8_ucs2", utf8),
    ("utf8_ucs4", utf8),
    ("646", ascii), ("ansi_x3.4_1968", ascii), ("ansi_x3.4_1986", ascii),
    ("ansi_x3_4_1968", ascii), ("cp367", ascii), ("csascii", ascii), ("ibm367", ascii),
    ("iso646_us", ascii), ("iso_646.irv_1991", ascii), ("iso_ir_6", ascii), ("us", ascii),
    ("us_ascii", ascii),
    ("8859", latin1), ("cp819", latin1), ("csisolatin1", latin1), ("ibm819", latin1),
    ("iso8859", latin1), ("iso8859_1", latin1), ("iso_8859_1", latin1),
    ("iso_8859_1_1987", latin1), ("iso_ir_100", latin1), ("l1", latin1), ("latin", latin1),
    ("latin1", latin1),
    ("1252", windows1252), ("windows_1252", windows1252),
    ("unicodelittleunmarked", utf16le), ("utf_16le", utf16le)]

/-- A name with its punctuation replaced: an underscore stands between words, and nothing before
the first and behind the last. `gap` says whether punctuation was just passed. -/
def normalizeLabel (gap : Bool) : List Char → List Char
  | [] => []
  | c :: r =>
    if c.isAlphanum || c == '.' then
      (if gap then ['_', c.toLower] else [c.toLower]) ++ normalizeLabel false r
    else normalizeLabel true r

/-- A name with an underscore in place of every dot. -/
def withoutDots (name : List Char) : List Char :=
  name.map fun c => if c == '.' then '_' else c

/-- The encoding that a name stands for. The dots in it may be meant as underscores where it is not
the one that the encoding goes by. -/
def ofLabel? (label : List Char) : Option Encoding :=
  let words := label.dropWhile fun c => !(c.isAlphanum || c == '.')
  let name := normalizeLabel false words
  ((aliases.lookup (String.ofList name)).or (aliases.lookup (String.ofList (withoutDots name)))).or
    (names.lookup (String.ofList name))

/-! ## Decoding -/

/-- The characters that Windows-1252 has in place of the control codes from 0x80. -/
def windowsTable : List (Option Nat) :=
  [some 0x20ac, none, some 0x201a, some 0x192, some 0x201e, some 0x2026, some 0x2020, some 0x2021,
    some 0x2c6, some 0x2030, some 0x160, some 0x2039, some 0x152, none, some 0x17d, none,
    none, some 0x2018, some 0x2019, some 0x201c, some 0x201d, some 0x2022, some 0x2013,
    some 0x2014, some 0x2dc, some 0x2122, some 0x161, some 0x203a, some 0x153, none, some 0x17e,
    some 0x178]

/-- A byte in ASCII. -/
def asciiChar? (b : UInt8) : Option Char :=
  if b < 0x80 then some (Char.ofNat b.toNat) else none

/-- A byte in Windows-1252. -/
def windowsChar? (b : UInt8) : Option Char :=
  if 0x80 ≤ b && b < 0xa0 then (windowsTable[b.toNat - 0x80]?.bind id).map Char.ofNat
  else some (Char.ofNat b.toNat)

/-- Bytes in UTF-16, low bytes first. -/
def decodeUtf16 : List UInt8 → Option (List Char)
  | [] => some []
  | [_] => none
  | a :: b :: r =>
    let unit := a.toNat + 0x100 * b.toNat
    if 0xd800 ≤ unit && unit < 0xdc00 then
      match r with
      | c :: d :: s =>
        let low := c.toNat + 0x100 * d.toNat
        if 0xdc00 ≤ low && low < 0xe000 then
          (decodeUtf16 s).map
            (Char.ofNat (0x10000 + (unit - 0xd800) * 0x400 + (low - 0xdc00)) :: ·)
        else none
      | _ => none
    else if 0xdc00 ≤ unit && unit < 0xe000 then none
    else (decodeUtf16 r).map (Char.ofNat unit :: ·)

/-- The text of some bytes, if they are well formed. -/
def decode (e : Encoding) (bytes : ByteArray) : Option String :=
  match e with
  | utf8 => String.fromUTF8? bytes
  | ascii => (bytes.data.toList.mapM asciiChar?).map String.ofList
  | latin1 => some (String.ofList (bytes.data.toList.map fun b => Char.ofNat b.toNat))
  | windows1252 => (bytes.data.toList.mapM windowsChar?).map String.ofList
  | utf16le => (decodeUtf16 bytes.data.toList).map String.ofList

/-- How bytes are read in an encoding. -/
def decoder (e : Encoding) : Decoder := fun bytes =>
  match e.decode bytes with
  | some text => .ok text
  | none => .error .malformed

theorem decoder_eq_ok_iff {e : Encoding} {bytes : ByteArray} {text : String} :
    e.decoder bytes = .ok text ↔ e.decode bytes = some text := by
  unfold decoder
  cases e.decode bytes <;> simp

end Encoding

/-! ## The encoding of a sheet -/

/-- The bytes of an ASCII text. -/
def asciiBytes (s : String) : List UInt8 :=
  s.toList.map fun c => UInt8.ofNat c.toNat

/-- The byte order mark. -/
def byteOrderMark : List UInt8 := [0xef, 0xbb, 0xbf]

/-- The bytes behind a given start. -/
def afterBytes? (start bytes : List UInt8) : Option (List UInt8) :=
  if start.isPrefixOf bytes then some (bytes.drop start.length) else none

/-- The name in the rule at the start of a sheet that gives its encoding. -/
def charsetLabel? (bytes : List UInt8) : Option (List UInt8) :=
  match afterBytes? (asciiBytes "@charset \"") bytes with
  | none => none
  | some r =>
    let label := r.takeWhile (· != 0x22)
    if label.isEmpty then none
    else (afterBytes? (asciiBytes "\";") (r.drop label.length)).map fun _ => label

/-- What the name of an encoding leads to. -/
inductive Charset where
  | known (e : Encoding)
  | other (d : Decoder)
  | unknown
  | noName

section

variable [Codecs]

/-- What the bytes of a name lead to. A name outside ASCII, or with a NUL in it, cannot be looked
up. -/
def Charset.ofLabel (label : List UInt8) : Charset :=
  match label.mapM Encoding.asciiChar? with
  | none => noName
  | some cs =>
    if cs.contains '\x00' then noName
    else
      let name := (Text.trim cs).map Char.toLower
      match Encoding.ofLabel? name, Codecs.find? (String.ofList name) with
      | some e, _ => known e
      | none, some d => other d
      | none, none => unknown

/-- The warning about an encoding that is not known. -/
def unknownCharset (label : List UInt8) (path : String) : Record :=
  ⟨.warning, .scanner,
    "unknown charset " ++ Text.quotedBytes label ++ " in " ++ path ++ ", falling back to utf-8"⟩

/-- The text of the bytes of the file at `path`, if they are text, and what is to be noted. -/
def decodeSheet (path : String) (bytes : ByteArray) : Except Unreadable String × Log :=
  match afterBytes? byteOrderMark bytes.data.toList with
  | some rest => (Encoding.utf8.decoder ⟨rest.toArray⟩, [])
  | none =>
    match charsetLabel? bytes.data.toList with
    | none => (Encoding.utf8.decoder bytes, [])
    | some label =>
      match Charset.ofLabel label with
      | .known e => (e.decoder bytes, [])
      | .other d => (d bytes, [])
      | .unknown => (Encoding.utf8.decoder bytes, [unknownCharset label path])
      | .noName => (.error .malformed, [])

end

end PixelUnit.Sheet
