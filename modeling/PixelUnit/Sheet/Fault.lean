import PixelUnit.Sheet.Position

/-!
# Faults

What can be wrong with a stylesheet. Some faults are only noted and the reading goes on; others
end it. A fault has a cause and the place it is reported at.
-/

namespace PixelUnit.Sheet

/-- What is wrong. -/
inductive Fault.Cause where
  | unclosedComment
  | unclosedString
  | brokenString
  | unclosedUrl
  | unclosedBracket
  | unclosedBlock
  | unexpectedClose
  | unknownWord
deriving DecidableEq

/-- A cause in words. -/
def Fault.Cause.message : Fault.Cause → String
  | .unclosedComment => "Unclosed comment"
  | .unclosedString => "Unclosed string"
  | .brokenString => "String literal not closed before newline"
  | .unclosedUrl => "Url not closed"
  | .unclosedBracket => "Unclosed bracket"
  | .unclosedBlock => "Block was not closed"
  | .unexpectedClose => "Unexpected \x7d"
  | .unknownWord => "Unknown word"

/-- Something wrong at some place. -/
structure Fault where
  cause : Fault.Cause
  pos : Position
deriving DecidableEq

/-- A fault in words. -/
def Fault.message (f : Fault) : String :=
  f.cause.message ++ " at line " ++ toString f.pos.line ++ ", column " ++ toString f.pos.column

end PixelUnit.Sheet
