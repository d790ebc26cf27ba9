import PixelUnit.Command.Basic
import PixelUnit.Command.Plain

/-!
# The program

The command on a real system, with a plain front end. Characters have no names here, and there are
no encodings beside those that are spelled out.
-/

open PixelUnit PixelUnit.Command

/-- The code of the system for a path that leads to a directory. -/
def directoryCode : UInt32 := 21

/-- The code of the system for a path that leads through a file. -/
def blockedCode : UInt32 := 20

/-- Why a file could not be saved, from the code of the system. -/
def obstacleOfCode (code : UInt32) : Obstacle :=
  if code == directoryCode then .directory
  else if code == blockedCode then .blocked
  else .missing

/-- The code of the system in an error about a path. -/
def codeOf : IO.Error → UInt32
  | .inappropriateType _ code _ => code
  | .noFileOrDirectory _ code _ => code
  | _ => 0

instance : Host IO where
  look path := do
    match ← (IO.FS.readBinFile path).toBaseIO with
    | .ok bytes => return .file bytes
    | .error e => return if codeOf e == directoryCode then .directory else .absent
  save path bytes := do
    match ← (IO.FS.writeBinFile path bytes).toBaseIO with
    | .ok () => return .ok ()
    | .error e => return .error (obstacleOfCode (codeOf e))
  print s := do
    let out ← IO.getStdout
    out.putStr s
    out.flush
  tell s := do
    let err ← IO.getStderr
    err.putStr s
    err.flush

section Program

attribute [local instance] plain Regex.CharacterNames.none Sheet.Codecs.none

def main (arguments : List String) : IO UInt32 := do
  let ending : Ending ← run arguments
  match ending with
  | .crashed c => Host.tell ("Fatal: " ++ c.message ++ "\n")
  | .halfPair => Host.tell "Fatal: half of a surrogate pair is no text\n"
  | _ => pure ()
  return UInt32.ofNat (ending.exitCode?.getD 1)

end Program
