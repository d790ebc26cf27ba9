import PixelUnit.Settings.Checking

/-!
# Settings from mappings

Settings are given by name, in a mapping or a configuration file. In a mapping, a text of the form
`/body/flags` stands for a regular expression where one can stand. What is given on top of a
configuration file wins over it, and the file over the defaults.
-/

namespace PixelUnit.Settings

variable [Regex.CharacterNames]

/-- Values by name. -/
abbrev Entries := List (String × Value)

/-! ## Regular expressions between slashes -/

/-- The body and the flags of a text of the form `/body/flags`: the body is not empty, and the
flags are lower-case letters, behind which one line feed may stand. -/
def literalParts? : List Char → Option (List Char × List Char)
  | '/' :: r =>
    let back := match r.reverse with
      | '\n' :: b => b
      | b => b
    let flags := back.takeWhile Char.isLower
    match back.dropWhile Char.isLower with
    | '/' :: body => if body.isEmpty then none else some (body.reverse, flags.reverse)
    | _ => none
  | _ => none

/-- Letters of flags that are allowed and mean nothing here. -/
def idleFlags : List Char := ['g', 'u', 'y']

/-- The flags that letters stand for. -/
def literalFlags (k : Key) (source : String) (flags : Regex.Flags) :
    List Char → Except Fault Regex.Flags
  | [] => .ok flags
  | c :: cs =>
    match Regex.Flags.ofLetter? c with
    | some f => literalFlags k source (flags.union f) cs
    | none =>
      if idleFlags.contains c then literalFlags k source flags cs
      else .error (.badFlag k c source)

/-- A value in which a text between slashes has become a regular expression. -/
def readLiteral (k : Key) : Value → Except Fault Value
  | .text s =>
    match literalParts? s.toList with
    | none => .ok (.text s)
    | some (body, letters) => do
      let flags ← literalFlags k s {} letters
      return .regex (← compileFor k (String.ofList body) s flags)
  | v => .ok v

/-- A value for a setting in which texts between slashes have become regular expressions, where
the setting can have them. -/
def readLiterals (k : Key) (v : Value) : Except Fault Value :=
  match k, v with
  | .pathPattern, v => readLiteral k v
  | .selectorBlacklist, .list vs => (vs.mapM (readLiteral k)).map .list
  | .propBlacklist, .list vs => (vs.mapM (readLiteral k)).map .list
  | _, v => .ok v

/-! ## Names -/

/-- The settings that entries are meant for, each at most once; `read` is applied to each value. -/
def resolve (read : Key → Value → Except Fault Value) (found : Overrides) :
    Entries → Except Fault Overrides
  | [] => .ok found
  | (name, v) :: rest =>
    match Key.ofAnyName? name with
    | none => .error (.unknownOption name)
    | some k =>
      if (found.get? k).isSome then .error (.repeatedOption name)
      else
        match read k v with
        | .error e => .error e
        | .ok w => resolve read (found ++ [(k, w)]) rest

/-- The settings that fields are meant for, by their names with underscores only. -/
def resolveFields (found : Overrides) : Entries → Except Fault Overrides
  | [] => .ok found
  | (name, v) :: rest =>
    match Key.ofName? name with
    | none => .error (.unexpectedName name)
    | some k => resolveFields (found ++ [(k, v)]) rest

/-! ## Making settings -/

/-- Settings from their fields. -/
def ofFields (entries : Entries) : Except Fault Settings := do
  Settings.update {} (← resolveFields [] entries)

/-- Settings with some of them given anew, by names of either kind. -/
def merge (s : Settings) (entries : Entries) : Except Fault Settings := do
  s.update (← resolve (fun _ v => .ok v) [] entries)

/-- Settings with those of a mapping on top. -/
def ofMapping (base : Settings) : Value → Except Fault Settings
  | .mapping entries => do base.update (← resolve readLiterals [] entries)
  | v => .error (.notMapping v.kindName)

/-- Line breaks of any kind as line feeds. -/
def unifyLineBreaks : List Char → List Char
  | [] => []
  | '\r' :: '\n' :: r => '\n' :: unifyLineBreaks r
  | '\r' :: r => '\n' :: unifyLineBreaks r
  | c :: r => c :: unifyLineBreaks r

/-- The fault of a configuration file at `path` whose text, as it was read, has a fault. -/
def Fault.ofJson (path : String) (cs : List Char) (e : Json.Fault) : Fault :=
  match e.cause with
  | .longInteger => .longInteger
  | .halfPair => .halfPair
  | _ => .badJson path (e.message cs)

/-- Settings with those of the configuration file at `path` on top. -/
def load (base : Settings) (path content : String) : Except Fault Settings :=
  let cs := unifyLineBreaks content.toList
  match Json.read cs with
  | .ok v => ofMapping base v
  | .error e => .error (.ofJson path cs e)

/-! ## Layers -/

/-- Whether a flag was given at all. -/
def isGiven : Value → Bool
  | .null => false
  | .tuple [] => false
  | _ => true

/-- The items of a value, if it has any. -/
def itemsOf? : Value → Option (List Value)
  | .list vs => some vs
  | .tuple vs => some vs
  | .text s => some (s.toList.map fun c => .text c.toString)
  | .bytes bs => some (bs.map fun b => .int b.toNat)
  | .mapping es => some (es.map fun e => .text e.1)
  | _ => none

/-- A flag, whose value is taken as a list if it is a blacklist. -/
def flagValue (entry : String × Value) : Except Fault (String × Value) :=
  match Key.ofName? entry.1 with
  | some .selectorBlacklist => asList .selectorBlacklist
  | some .propBlacklist => asList .propBlacklist
  | _ => .ok entry
where
  /-- The entry with its items in a list. -/
  asList (k : Key) : Except Fault (String × Value) :=
    match itemsOf? entry.2 with
    | some vs => .ok (entry.1, .list vs)
    | none => .error (.notIterable k)

/-- The expression that every path matches. -/
def anyPath : Value := .text ".*"

/-- Settings from a configuration file, if there is one, and flags on top of it. Whatever path is
not excluded by either is to be converted. -/
def layered (config : Option (String × String)) (flags : Entries) : Except Fault Settings := do
  let base ← match config with
    | some (path, content) => load {} path content
    | none => .ok {}
  let given ← (flags.filter (isGiven ·.2)).mapM flagValue
  let settings ← ofMapping base (.mapping given)
  if settings.pathPattern.isNone then settings.update [(.pathPattern, anyPath)] else .ok settings

end PixelUnit.Settings
