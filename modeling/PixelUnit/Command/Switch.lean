/-!
# Switches

The switches of the command line. A parameter comes with a text, a flag is on or off. Each row of
the table says how a switch is written, what giving it means, and what it is for.
-/

namespace PixelUnit.Command

/-- Switches that come with a text. -/
inductive Parameter where
  | variableName
  | pathPattern
  | selectorBlacklist
  | propBlacklist
  | ignoreMark
  | config
  | output
deriving DecidableEq

/-- Switches that are on or off. -/
inductive Flag where
  | fallbackOrigin
  | replaces
  | inPlace
  | verbose
  | help
deriving DecidableEq

/-- What a switch means when it is given. -/
inductive Meaning where
  | takes (p : Parameter)
  | sets (f : Flag) (on : Bool)
deriving DecidableEq

/-- A way to write a switch: a word behind two dashes or a letter behind one. -/
inductive Spelling where
  | word (w : String)
  | letter (c : Char)
deriving DecidableEq

/-- A switch as it is written on the command line. -/
def Spelling.text : Spelling → String
  | word w => "--" ++ w
  | letter c => "-" ++ c.toString

/-- Switches that are explained together: each is written in some ways. -/
structure Row where
  switches : List (Spelling × Meaning)
  /-- What the switches are for. -/
  purpose : String

/-- A parameter that is written as one word. -/
def parameterRow (w : String) (p : Parameter) (purpose : String) : Row :=
  ⟨[(.word w, .takes p)], purpose⟩

/-- A flag that one word turns on and another off. -/
def flagRow (w : String) (f : Flag) (purpose : String) : Row :=
  ⟨[(.word w, .sets f true), (.word ("no-" ++ w), .sets f false)], purpose⟩

/-- All switches. -/
def rows : List Row :=
  [parameterRow "css-variable" .variableName "Custom property to reference, e.g. --unit",
    parameterRow "include" .pathPattern "Regex the file path must match [default: every file]",
    flagRow "fallback-origin" .fallbackOrigin "Use the original length as var() fallback",
    parameterRow "selector-blacklist" .selectorBlacklist
      "Skip selectors containing this text, or matching /regex/",
    parameterRow "prop-blacklist" .propBlacklist
      "Skip properties containing this text, or matching /regex/",
    parameterRow "ignore-identifier" .ignoreMark
      "Skip declarations containing, or followed by a comment of, this text",
    flagRow "replace" .replaces "Overwrite values or insert a rewritten copy after them",
    parameterRow "config" .config "JSON file with options",
    ⟨[(.word "in-place", .sets .inPlace true)], "Write the result back to each file"⟩,
    ⟨[(.letter 'o', .takes .output), (.word "output", .takes .output)],
      "Write the result to this file"⟩,
    ⟨[(.letter 'v', .sets .verbose true), (.word "verbose", .sets .verbose true)],
      "Log every skipped and rewritten declaration"⟩,
    ⟨[(.word "help", .sets .help true)], "Show this message and exit."⟩]

/-- What a switch means, if there is such a switch. -/
def meaningOf (s : Spelling) : Option Meaning :=
  (rows.flatMap Row.switches).lookup s

/-- A parameter as messages name it: its shortest spelling comes first. -/
def Parameter.label (p : Parameter) : String :=
  let spellings := (rows.flatMap Row.switches).filter (·.2 == .takes p)
  " / ".intercalate (spellings.map fun s => "'" ++ s.1.text ++ "'")

/-! ## Texts -/

/-- How the command is used. -/
def usage : String := "Usage: px2var [OPTIONS] FILES...\n"

/-- A row as the help shows it. -/
def Row.help (r : Row) : String :=
  let isFlag := r.switches.all fun s => match s.2 with
    | .takes _ => false
    | .sets .. => true
  "  " ++ ", ".intercalate (r.switches.map (·.1.text)) ++ (if isFlag then "" else " TEXT") ++
    "\n      " ++ r.purpose ++ "\n"

/-- What the command is for, and its switches. -/
def help : String :=
  usage ++ "\n  Rewrite px lengths in FILES into calc(N*var(--css-variable)) expressions.\n\n" ++
    "Options:\n" ++ String.join (rows.map Row.help)

end PixelUnit.Command
