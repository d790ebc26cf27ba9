import PixelUnit.Text.Printable

/-!
# Quoted texts

A text is shown between single quotes, or between double quotes when it holds a single quote and
no double one. The quote in use and the backslash are escaped, line feed, carriage return and tab
have letters of their own, and what is not printable is written by its code point in two, four or
eight hexadecimal digits. Bytes are shown in the same way after a `b`, each byte outside the
printable ASCII range by its two digits.
-/

namespace PixelUnit.Text

/-- `n` in lower-case hexadecimal, padded with zeros to `width` digits. -/
def hexadecimal (width n : Nat) : List Char :=
  let digits := Nat.toDigits 16 n
  List.replicate (width - digits.length) '0' ++ digits

/-- The quote a text is shown in. -/
def quoteFor (cs : List Char) : Char :=
  if cs.contains '\'' && !cs.contains '"' then '"' else '\''

/-- A character that cannot stand for itself, by its code point. -/
def escapeCode (n : Nat) : List Char :=
  if n < 0x100 then '\\' :: 'x' :: hexadecimal 2 n
  else if n < 0x10000 then '\\' :: 'u' :: hexadecimal 4 n
  else '\\' :: 'U' :: hexadecimal 8 n

/-- A character as it stands inside quotes: itself if it is plain, an escape otherwise. -/
def escapeWith (quote : Char) (isPlain : Char → Bool) (c : Char) : List Char :=
  if c == quote || c == '\\' then ['\\', c]
  else if c == '\n' then ['\\', 'n']
  else if c == '\r' then ['\\', 'r']
  else if c == '\t' then ['\\', 't']
  else if isPlain c then [c]
  else escapeCode c.toNat

/-- A list of characters as it is shown between quotes. -/
def quotedChars (cs : List Char) : List Char :=
  let quote := quoteFor cs
  quote :: cs.flatMap (escapeWith quote isPrintable) ++ [quote]

/-- A text as it is shown between quotes. -/
def quoted (s : String) : String :=
  String.ofList (quotedChars s.toList)

/-- A sequence of bytes as it is shown between quotes. -/
def quotedBytes (bytes : List UInt8) : String :=
  let cs := bytes.map fun b => Char.ofNat b.toNat
  let quote := quoteFor cs
  String.ofList ('b' :: quote ::
    cs.flatMap (escapeWith quote fun c => 0x20 ≤ c.toNat && c.toNat < 0x7f) ++ [quote])

end PixelUnit.Text
