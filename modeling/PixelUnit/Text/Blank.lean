import PixelUnit.Text.Ranges

/-!
# Blank characters

White space of text at large, in any script, and the trimming of a text at either end. What a
stylesheet itself counts as white space is a smaller class (`PixelUnit.Sheet.isSpacing`).

`trimStart_append` and `trimEnd_append` are the two facts that everything else uses: a text is its
leading blanks, its trimmed part and its trailing blanks.
-/

namespace PixelUnit.Text

/-- The code points of the blank characters. -/
def blankRanges : Ranges :=
  [(0x9, 0xd), (0x1c, 0x20), (0x85, 0x85), (0xa0, 0xa0), (0x1680, 0x1680), (0x2000, 0x200a),
  (0x2028, 0x2029), (0x202f, 0x202f), (0x205f, 0x205f), (0x3000, 0x3000)]

/-- Whether a character is white space in some script. -/
def isBlank (c : Char) : Bool :=
  blankRanges.contains c

/-! ## Lists of characters -/

/-- The blanks a text starts with. -/
def leadingBlanks (cs : List Char) : List Char :=
  cs.takeWhile isBlank

/-- The text from its first character that is not blank. -/
def trimStart (cs : List Char) : List Char :=
  cs.dropWhile isBlank

/-- The blanks a text ends with. -/
def trailingBlanks (cs : List Char) : List Char :=
  (cs.reverse.takeWhile isBlank).reverse

/-- The text up to its last character that is not blank. -/
def trimEnd (cs : List Char) : List Char :=
  (cs.reverse.dropWhile isBlank).reverse

/-- The text without the blanks at either end. -/
def trim (cs : List Char) : List Char :=
  trimEnd (trimStart cs)

/-- Leading blanks and the rest make up the text. -/
theorem trimStart_append (cs : List Char) : leadingBlanks cs ++ trimStart cs = cs :=
  List.takeWhile_append_dropWhile

/-- The trimmed text and its trailing blanks make up the text. -/
theorem trimEnd_append (cs : List Char) : trimEnd cs ++ trailingBlanks cs = cs := by
  rw [trimEnd, trailingBlanks, ← List.reverse_append, List.takeWhile_append_dropWhile,
    List.reverse_reverse]

end PixelUnit.Text
