import PixelUnit.Command.Switch
import PixelUnit.Text.Quoted

/-!
# Misuse

Command lines that cannot be carried out, and what the user is told about them.
-/

namespace PixelUnit.Command

/-- What is wrong with a command line. -/
inductive Misuse where
  | unknownSwitch (written : String)
  | missingText (written : String)
  | needlessText (written : String)
  | missingFiles
  | noFile (argument path : String)
  | directory (argument path : String)
deriving DecidableEq

namespace Misuse

/-- A path that cannot be used for an argument. -/
def invalidPath (argument path fault : String) : String :=
  "Invalid value for " ++ argument ++ ": File " ++ Text.quoted path ++ " " ++ fault ++ "."

/-- What is wrong, in words. -/
def message : Misuse → String
  | unknownSwitch written => "No such option: " ++ written
  | missingText written => "Option " ++ Text.quoted written ++ " requires an argument."
  | needlessText written => "Option " ++ Text.quoted written ++ " does not take a value."
  | missingFiles => "Missing argument 'FILES...'."
  | noFile argument path => invalidPath argument path "does not exist"
  | directory argument path => invalidPath argument path "is a directory"

/-- What the user is told, given what is wrong in words. -/
def report (message : String) : String :=
  usage ++ "Try 'px2var --help' for help.\n\nError: " ++ message ++ "\n"

end Misuse

end PixelUnit.Command
