import PixelUnit.Command.Host
import PixelUnit.Settings.Key
import PixelUnit.Value

/-!
# Calls

What the command is called with: the files to convert, and a value for each of its switches. Paths
are checked before the command is called, those of files in its call are in order
(`Call.Checked`).
-/

namespace PixelUnit.Command

/-- A call of the command. -/
structure Call where
  files : List String
  variableName : Option String := none
  pathPattern : Option String := none
  fallbackOrigin : Option Bool := none
  selectorBlacklist : List String := []
  propBlacklist : List String := []
  ignoreMark : Option String := none
  replaces : Option Bool := none
  /-- The path of the configuration file. -/
  config : Option String := none
  inPlace : Bool := false
  /-- The path that the result goes to. -/
  output : Option String := none
  verbose : Bool := false

namespace Call

/-- The paths in a call are in order, given the kinds of what is at paths: there are files to
convert, and all of them and the configuration file are there, and the result does not take the
place of a directory. -/
structure Checked (c : Call) (kinds : String → Kind) : Prop where
  nonempty : c.files ≠ []
  files : ∀ path ∈ c.files, kinds path = .file
  config : ∀ path, c.config = some path → kinds path = .file
  output : ∀ path, c.output = some path → kinds path ≠ .directory

/-! ## Values -/

/-- A text as a value. -/
def textValue (s : Option String) : Value :=
  (s.map Value.text).getD .null

/-- A flag as a value. -/
def flagValue (b : Option Bool) : Value :=
  (b.map Value.bool).getD .null

/-- Texts as a value. -/
def textsValue (ss : List String) : Value :=
  .tuple (ss.map .text)

/-- The settings that a call gives, by name. -/
def entries (c : Call) : List (String × Value) :=
  let entry (k : Settings.Key) (v : Value) : String × Value := (k.name, v)
  [entry .variableName (textValue c.variableName),
    entry .pathPattern (textValue c.pathPattern),
    entry .fallbackOrigin (flagValue c.fallbackOrigin),
    entry .selectorBlacklist (textsValue c.selectorBlacklist),
    entry .propBlacklist (textsValue c.propBlacklist),
    entry .ignoreMark (textValue c.ignoreMark),
    entry .replaces (flagValue c.replaces)]

/-! ## Results -/

/-- Where the result for a file goes, unless it is printed. -/
def target? (c : Call) (path : String) : Option String :=
  if c.inPlace then some path else c.output

/-- Why a call cannot be carried out, whatever is in the files. -/
def conflict? (c : Call) : Option String :=
  if c.output.isSome && decide (1 < c.files.length) then
    some "--output can only be used with a single file"
  else if c.output.isSome && c.inPlace then
    some "--output and --in-place are mutually exclusive"
  else none

end Call

end PixelUnit.Command
