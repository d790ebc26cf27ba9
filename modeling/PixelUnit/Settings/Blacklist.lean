import PixelUnit.Regex.Basic

/-!
# Blacklists

A blacklist names selectors or properties that are to be left alone. An entry is a text, which
matches whatever contains it, or a regular expression.
-/

namespace PixelUnit

/-- An entry of a blacklist. -/
inductive Blacklist.Entry where
  | substring (text : String)
  | regex (r : Regex)
deriving DecidableEq

/-- The entries of a blacklist. -/
abbrev Blacklist := List Blacklist.Entry

namespace Text

/-- Whether a text occurs in another. -/
def occursIn (part : List Char) : List Char → Bool
  | [] => part.isEmpty
  | c :: r => part.isPrefixOf (c :: r) || occursIn part r

/-- Whether a text contains another. -/
def contains (whole part : String) : Bool :=
  occursIn part.toList whole.toList

end Text

namespace Blacklist

/-- Whether an entry matches a text. -/
def Entry.hits (e : Entry) (subject : String) : Bool :=
  match e with
  | substring text => Text.contains subject text
  | regex r => r.finds subject

/-- An entry as it is shown. -/
def Entry.describe : Entry → String
  | substring text => "Substring(" ++ Text.quoted text ++ ")"
  | regex r => "Regex(" ++ Text.quoted r.source ++ ")"

/-- Whether any entry matches; where there is no text, none does. -/
def hits (b : Blacklist) (subject : Option String) : Bool :=
  subject.any fun s => b.any (·.hits s)

/-- A blacklist as it is shown. -/
def describe (b : Blacklist) : String :=
  "BlackList([" ++ ", ".intercalate (b.map Entry.describe) ++ "])"

end Blacklist

end PixelUnit
