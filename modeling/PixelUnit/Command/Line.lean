import PixelUnit.Command.Misuse

/-!
# Command lines

The arguments of the command are switches, their texts and files, in any order. A text stands
behind its switch, as an argument of its own or, behind an equals sign or directly behind a
letter, in the same argument. Several letters can share one dash. Behind `--` there are only files.
-/

namespace PixelUnit.Command

/-- A switch that was given. -/
inductive Given where
  | text (p : Parameter) (s : String)
  | flag (f : Flag) (on : Bool)
deriving DecidableEq

/-- The switches and the files of a command line, both in their order. -/
structure Line where
  given : List Given := []
  files : List String := []

/-- A switch whose text is still to come, and how it was written. -/
structure Pending where
  parameter : Parameter
  written : String

/-- What one argument gives: switches, the last of which may wait for its text. -/
structure Cluster where
  given : List Given := []
  pending : Option Pending := none

namespace Cluster

/-- The switch written as a word, with the text behind its equals sign. -/
def ofWord (word : List Char) (text : Option (List Char)) : Except Misuse Cluster :=
  let spelling := Spelling.word (String.ofList word)
  match meaningOf spelling, text with
  | none, _ => .error (.unknownSwitch spelling.text)
  | some (.takes p), some t => .ok { given := [.text p (String.ofList t)] }
  | some (.takes p), none => .ok { pending := some ⟨p, spelling.text⟩ }
  | some (.sets f on), none => .ok { given := [.flag f on] }
  | some (.sets _ _), some _ => .error (.needlessText spelling.text)

/-- The switches written as letters behind one dash; what follows the letter of a parameter is its
text. -/
def ofLetters : List Char → Except Misuse Cluster
  | [] => .ok {}
  | c :: r =>
    match meaningOf (.letter c) with
    | none => .error (.unknownSwitch (Spelling.letter c).text)
    | some (.takes p) =>
      if r.isEmpty then .ok { pending := some ⟨p, (Spelling.letter c).text⟩ }
      else .ok { given := [.text p (String.ofList r)] }
    | some (.sets f on) => do
      let rest ← ofLetters r
      return { rest with given := .flag f on :: rest.given }

/-- What an argument gives, unless it is a file. -/
def ofArgument? (argument : String) : Option (Except Misuse Cluster) :=
  match argument.toList with
  | '-' :: '-' :: r =>
    let word := r.takeWhile (· != '=')
    some (ofWord word (if word.length < r.length then some (r.drop (word.length + 1)) else none))
  | ['-'] => none
  | '-' :: letters => some (ofLetters letters)
  | _ => none

end Cluster

namespace Line

/-- The command line that an argument stands before. -/
def addFile (path : String) (l : Line) : Line :=
  { l with files := path :: l.files }

/-- The command line that switches stand before. -/
def addGiven (given : List Given) (l : Line) : Line :=
  { l with given := given ++ l.given }

/-- The command line that some arguments make up. -/
def ofArguments : List String → Except Misuse Line
  | [] => .ok {}
  | "--" :: files => .ok { files }
  | a :: rest =>
    match Cluster.ofArgument? a with
    | none => (ofArguments rest).map (addFile a)
    | some (.error m) => .error m
    | some (.ok ⟨given, none⟩) => (ofArguments rest).map (addGiven given)
    | some (.ok ⟨given, some p⟩) =>
      match rest with
      | [] => .error (.missingText p.written)
      | text :: rest => (ofArguments rest).map (addGiven (given ++ [.text p.parameter text]))

/-! ## What is given -/

/-- The texts given for a parameter. -/
def texts (l : Line) (p : Parameter) : List String :=
  l.given.filterMap fun g => match g with
    | .text q s => if q = p then some s else none
    | .flag .. => none

/-- The text given last for a parameter. -/
def text? (l : Line) (p : Parameter) : Option String :=
  (l.texts p).getLast?

/-- Whether a flag was turned on or off last. -/
def flag? (l : Line) (f : Flag) : Option Bool :=
  (l.given.filterMap fun g => match g with
    | .flag g on => if g = f then some on else none
    | .text .. => none).getLast?

/-- Whether a flag is on. -/
def has (l : Line) (f : Flag) : Bool :=
  l.flag? f == some true

/-- The parameters that are given, in the order in which they occur first. -/
def parameters (l : Line) : List Parameter :=
  (l.given.filterMap fun g => match g with
    | .text p _ => some p
    | .flag .. => none).eraseDups

end Line

end PixelUnit.Command
