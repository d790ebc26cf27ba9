import PixelUnit.Regex.Matcher
import PixelUnit.Settings.Basic

/-!
# Converting lengths

In a value every pixel length, a decimal number followed by `px`, is replaced by a multiple of a
custom property. Quoted strings and addresses in `url(…)` stay as they are: the pattern of what is
looked for matches them too, so that nothing is found inside them.
-/

namespace PixelUnit

open Regex

namespace Lengths

/-- One or more characters other than `c`. -/
def untilChar (c : Char) : Pattern :=
  .rep 1 none .greedy (.set [.char c] true .exact)

/-- A quoted text that is not empty. -/
def quotedPattern (quote : Char) : Pattern :=
  .seq (.char quote .exact) (.seq (untilChar quote) (.char quote .exact))

/-- A letter of either case. -/
def letter (c : Char) : Pattern :=
  .char c .ascii

/-- An address that is not empty. -/
def urlPattern : Pattern :=
  .seq (letter 'u') (.seq (letter 'r') (.seq (letter 'l') (.seq (.char '(' .exact)
    (.seq (untilChar ')') (.char ')' .exact)))))

/-- A decimal digit. -/
def digit : Pattern :=
  .set [.range '0'.toNat '9'.toNat] false .exact

/-- A number: digits, perhaps with a point before the last of them. -/
def numberPattern : Pattern :=
  .seq (.rep 0 none .greedy digit)
    (.seq (.rep 0 (some 1) .greedy (.char '.' .exact)) (.rep 1 none .greedy digit))

/-- A length: a number, the first group, and its unit, the second. -/
def lengthPattern : Pattern :=
  .seq (.group 1 numberPattern) (.group 2 (.seq (letter 'p') (letter 'x')))

/-- What is looked for in a value: a quoted text, an address or a length. -/
def pattern : Pattern :=
  .alt (quotedPattern '"') (.alt (quotedPattern '\'') (.alt urlPattern lengthPattern))

/-- A multiple of a custom property, with a fallback if there is one. -/
def multiple (property : String) (number : String) (fallback : Option String) : String :=
  let tail := match fallback with
    | some f => "," ++ f
    | none => ""
  "calc(" ++ number ++ "*var(" ++ property ++ tail ++ "))"

/-- What a match is replaced by: a length by a multiple, anything else by itself. -/
def replacement (property : String) (fallback : Fallback) (m : Match) : List Char :=
  match m.group? 1 with
  | none => m.text
  | some number =>
    let number := String.ofList number
    let unit := String.ofList ((m.group? 2).getD [])
    (multiple property number (fallback.make (String.ofList m.text) number unit)).toList

/-- A value with its lengths converted. -/
def convert (property : String) (fallback : Fallback) (value : String) : String :=
  String.ofList (pattern.replace (replacement property fallback) value.toList)

end Lengths

/-- A value with its lengths converted as settings say. -/
def Settings.convert (s : Settings) (value : String) : String :=
  Lengths.convert s.variableName s.fallback value

end PixelUnit
