/-!
# The log

What the program notes while it works: each record has a level, the part of the program that
noted it, and a text.
-/

namespace PixelUnit

/-- How much a record matters. -/
inductive Level where
  | debug
  | warning
deriving DecidableEq

/-- The name of a level, as it is written at the start of a log line. -/
def Level.name : Level → String
  | .debug => "DEBUG"
  | .warning => "WARNING"

/-- The part of the program that notes something. -/
inductive Channel where
  | scanner
  | reader
  | transform
  | command
deriving DecidableEq

/-- The name under which a part of the program writes its records. -/
def Channel.name : Channel → String
  | .scanner => "px2var.css.lexer"
  | .reader => "px2var.css.parser"
  | .transform => "px2var.plugin"
  | .command => "px2var.cli"

/-- One note. -/
structure Record where
  level : Level
  channel : Channel
  text : String
deriving DecidableEq

/-- Records in the order in which they were made. -/
abbrev Log := List Record

/-- A record as a line of its own. -/
def Record.line (r : Record) : String :=
  r.level.name ++ " " ++ r.channel.name ++ ": " ++ r.text ++ "\n"

end PixelUnit
