import PixelUnit.Regex.Matcher
import PixelUnit.Regex.Reader

/-!
# Regular expressions

An expression is compiled once: its text is kept beside the pattern that it stands for, so that it
can be shown again.
-/

namespace PixelUnit

/-- A compiled regular expression. -/
structure Regex where
  source : String
  flags : Regex.Flags
  pattern : Regex.Pattern
deriving DecidableEq

namespace Regex

section

variable [CharacterNames]

/-- The expression with a given text and flags. -/
def compile (source : String) (flags : Flags := {}) : Except Fault Regex :=
  match (readPattern source.toList flags).1 with
  | .ok (p, flags) => .ok ⟨source, flags, p⟩
  | .error e => .error e

/-- What is warned of while the expression with a given text and flags is compiled, whether it can
be or not. -/
def warnings (source : String) (flags : Flags := {}) : List Warning :=
  (readPattern source.toList flags).2

end

/-- Whether an expression matches anywhere in a text. -/
def finds (r : Regex) (text : String) : Bool :=
  (r.pattern.search text.toList).isSome

/-- How much of its quoted text an expression shows. -/
def shownLength : Nat := 200

/-- An expression as it is shown: its text, cut off if it is long, and the names of its flags. -/
def describe (r : Regex) : String :=
  let text := String.ofList ((Text.quotedChars r.source.toList).take shownLength)
  let flags := if r.flags.names.isEmpty then "" else ", " ++ "|".intercalate r.flags.names
  "re.compile(" ++ text ++ flags ++ ")"

end Regex

end PixelUnit
