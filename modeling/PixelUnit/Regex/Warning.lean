/-!
# Warnings about regular expressions

Sets in square brackets may one day have sets inside them and be combined by signs. Where a set
reads as if it were meant so, the reading goes on as ever, but a warning is noted.
-/

namespace PixelUnit.Regex

/-- What a set reads like. -/
inductive Warning.Cause where
  | nestedSet
  | difference
  | intersection
  | symmetricDifference
  | union
deriving DecidableEq

/-- A cause in words. -/
def Warning.Cause.message : Warning.Cause → String
  | nestedSet => "Possible nested set"
  | difference => "Possible set difference"
  | intersection => "Possible set intersection"
  | symmetricDifference => "Possible set symmetric difference"
  | union => "Possible set union"

/-- The combination of sets that a doubled character would be the sign of. -/
def Warning.Cause.ofSign? : Char → Option Warning.Cause
  | '-' => some difference
  | '&' => some intersection
  | '~' => some symmetricDifference
  | '|' => some union
  | _ => none

/-- A warning, and at which character of the expression its cause is. -/
structure Warning where
  cause : Warning.Cause
  index : Nat
deriving DecidableEq

/-- A warning in words. -/
def Warning.message (w : Warning) : String :=
  w.cause.message ++ " at position " ++ toString w.index

end PixelUnit.Regex
