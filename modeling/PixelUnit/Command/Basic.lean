import PixelUnit.Command.Frontend
import PixelUnit.Sheet.File
import PixelUnit.Transform.Basic

/-!
# The command

The command converts the files that it is called with, one after the other, under settings made from
its switches and a configuration file. A result is printed, put back into the file or saved in
another file. The first file that cannot be converted ends the command; what was done before stays
done.
-/

namespace PixelUnit.Command

/-- Why the command ends without having told the user. -/
inductive Crash where
  | notText
  | gone
  | regexError (cause : Regex.Fault.Cause)
  | longInteger
  | notPrinted
  | notSaved (o : Obstacle)
  | notReported
  | notConverted (e : EditError)

/-- A crash in words. -/
def Crash.message : Crash → String
  | notText => "a file is not text"
  | gone => "a file is gone"
  | regexError cause => "a regular expression cannot be used: " ++ cause.message
  | longInteger => "an integer in the configuration file has too many digits"
  | notPrinted => "the result cannot be printed"
  | notSaved .missing => "there is no directory to save the result in"
  | notSaved .directory => "the result cannot be saved in place of a directory"
  | notSaved .blocked => "the path for the result leads through a file"
  | notReported => "the report cannot be shown"
  | notConverted e => e.message

/-- How the command ends. -/
inductive Ending where
  | done
  | refused
  | misused
  | crashed (c : Crash)
  /-- The command has come to something that would be a text but for half of a surrogate pair in it.
  There is no such text here, so it is not said what the command does from there on. -/
  | halfPair

/-- The exit code of an ending, as far as it is known. -/
def Ending.exitCode? : Ending → Option Nat
  | done => some 0
  | refused => some 1
  | misused => some 2
  | crashed _ => some 1
  | halfPair => none

variable {m : Type → Type} [Monad m] [Host m] [Frontend] [Regex.CharacterNames] [Sheet.Codecs]

/-- Ends the command: its call cannot be carried out. -/
def misuse (reason : String) : m Ending := do
  Host.tell (Frontend.misuse reason)
  return .misused

/-- Ends the command: something that it was given cannot be used. -/
def refuse (reason : String) : m Ending := do
  Host.tell (Frontend.refusal reason)
  return .refused

/-! ## Settings -/

/-- Ends the command: its settings cannot be used. The user is told why, if that is reported as a
fault of settings. -/
def rejectSettings (f : Settings.Fault) : m Ending :=
  match f with
  | .regexError cause => return .crashed (.regexError cause)
  | .longInteger => return .crashed .longInteger
  | .halfPair => return .halfPair
  | f => refuse f.message

/-- The content of the configuration file, if there is one. -/
def readConfig (path : Option String) : m (Except Crash (Option (String × String))) := do
  match path with
  | none => return .ok none
  | some path =>
    match ← Host.look path with
    | .file bytes =>
      match String.fromUTF8? bytes with
      | some content => return .ok (some (path, content))
      | none => return .error .notText
    | _ => return .error .gone

/-! ## Converting -/

/-- Writes the records that are wanted: warnings, and all others if asked for. -/
def tellLog (verbose : Bool) (log : Log) : m Unit :=
  (log.filter fun r => verbose || r.level == .warning).forM fun r => Host.tell r.line

/-- How many declarations were converted, in words. -/
def countText (count : Nat) : String :=
  toString count ++ " declaration(s) rewritten"

/-- The report on a file, marked to be green if anything was converted and yellow otherwise. -/
def reportMarkup (path : String) (target : Option String) (count : Nat) : String :=
  let color := if 0 < count then "green" else "yellow"
  let arrow := match target with
    | some t => if t == path then "" else " -> " ++ t
    | none => ""
  "[" ++ color ++ "]" ++ path ++ arrow ++ ": " ++ countText count

/-- Hands over a result. -/
def deliver (target : Option String) (text : String) : m (Except Crash Unit) := do
  match target with
  | none =>
    match Frontend.echo text with
    | none => return .error .notPrinted
    | some shown =>
      Host.print shown
      return .ok ()
  | some path => return (← Host.save path text.toUTF8).mapError .notSaved

/-- Ends the handling of a file with a report on it. -/
def report (path : String) (target : Option String) (count : Nat) : m Ending := do
  match Frontend.display (reportMarkup path target count) with
  | none => return .crashed .notReported
  | some shown =>
    Host.tell shown
    return .done

/-- Converts one file. -/
def convertFile (c : Call) (s : Settings) (path : String) : m Ending := do
  match ← Host.look path with
  | .file bytes =>
    let (reading, log) := Sheet.treeOfFile path bytes
    tellLog c.verbose log
    match reading with
    | .error (.unreadable .malformed) => return .crashed .notText
    | .error (.unreadable .halfPair) => return .halfPair
    | .error (.fault f) => refuse (path ++ ": " ++ f.message)
    | .ok tree =>
      match s.transformTree tree with
      | .error e => return .crashed (.notConverted e)
      | .ok done =>
        let counted : Record := ⟨.debug, .command, path ++ ": " ++ countText done.count⟩
        tellLog c.verbose (done.log ++ [counted])
        match ← deliver (c.target? path) (done.tree.text false) with
        | .error e => return .crashed e
        | .ok () => report path (c.target? path) done.count
  | _ => return .crashed .gone

/-- Converts files up to the first that cannot be converted. -/
def convertFiles (c : Call) (s : Settings) : List String → m Ending
  | [] => return .done
  | path :: paths => do
    match ← convertFile c s path with
    | .done => convertFiles c s paths
    | ending => return ending

/-- Carries out a call. -/
def runCall (c : Call) : m Ending := do
  match c.conflict? with
  | some reason => misuse reason
  | none =>
    match ← readConfig c.config with
    | .error e => return .crashed e
    | .ok config =>
      Host.tell (Frontend.warn (Settings.Warning.ofLayers config c.entries))
      match Settings.layered config c.entries with
      | .error f => rejectSettings f
      | .ok s =>
        if s.variableName == "" then
          misuse "a css variable is required, pass --css-variable or set cssVariable in --config"
        else convertFiles c s c.files

/-- Runs the command with some arguments. -/
def run (arguments : List String) : m Ending := do
  match ← (Frontend.read arguments).run with
  | .call c => runCall c
  | .print text =>
    Host.print text
    return .done
  | .misuse text =>
    Host.tell text
    return .misused

end PixelUnit.Command
