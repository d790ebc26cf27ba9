import PixelUnit.Settings.Mapping

/-!
# Warnings about settings

What is warned of while settings are made. Each regular expression that is compiled on the way may
draw warnings, also one that is replaced by another later, and also if something else turns out to
be wrong afterwards; nothing is compiled any more once something is wrong.
-/

namespace PixelUnit.Settings

variable [Regex.CharacterNames]

/-- Where a regular expression comes from. -/
inductive Warning.Origin where
  /-- A text that is an expression as a whole. -/
  | plain
  /-- A text between slashes. -/
  | literal
deriving DecidableEq

/-- A warning about a regular expression. -/
structure Warning where
  origin : Warning.Origin
  warning : Regex.Warning
deriving DecidableEq

namespace Warning

/-- The warnings about an expression. -/
def ofRegex (origin : Origin) (source : String) (flags : Regex.Flags) : List Warning :=
  (Regex.warnings source flags).map (⟨origin, ·⟩)

/-- The warnings about a value in which a text between slashes stands for an expression. -/
def ofLiteral (k : Key) : Value → List Warning
  | .text s =>
    match literalParts? s.toList with
    | none => []
    | some (body, letters) =>
      match literalFlags k s {} letters with
      | .ok flags => ofRegex .literal (String.ofList body) flags
      | .error _ => []
  | _ => []

/-- The warnings about items that are read one after the other, up to the first that has a fault. -/
def ofItems (k : Key) : List Value → List Warning
  | [] => []
  | v :: vs =>
    ofLiteral k v ++ match readLiteral k v with
      | .ok _ => ofItems k vs
      | .error _ => []

/-- The warnings about a value for a setting. -/
def ofValue (k : Key) (v : Value) : List Warning :=
  match k, v with
  | .pathPattern, v => ofLiteral k v
  | .selectorBlacklist, .list vs => ofItems k vs
  | .propBlacklist, .list vs => ofItems k vs
  | _, _ => []

/-- The warnings about entries whose values are read one after the other. -/
def ofEntries (found : Overrides) : Entries → List Warning
  | [] => []
  | (name, v) :: rest =>
    match Key.ofAnyName? name with
    | none => []
    | some k =>
      if (found.get? k).isSome then []
      else
        ofValue k v ++ match readLiterals k v with
          | .ok w => ofEntries (found ++ [(k, w)]) rest
          | .error _ => []

/-- The warnings about what paths must match, once all values have been read. -/
def ofPathPattern (o : Overrides) : List Warning :=
  match o.get? .pathPattern with
  | some (.text s) => ofRegex .plain s {}
  | _ => []

/-- The warnings about a mapping. -/
def ofMapping : Value → List Warning
  | .mapping entries =>
    ofEntries [] entries ++ match resolve readLiterals [] entries with
      | .ok o => ofPathPattern o
      | .error _ => []
  | _ => []

/-- The warnings about a configuration file with a given content. -/
def ofConfig (content : String) : List Warning :=
  match Json.read (unifyLineBreaks content.toList) with
  | .ok v => ofMapping v
  | .error _ => []

/-- The warnings about flags. -/
def ofFlags (flags : Entries) : List Warning :=
  match (flags.filter (isGiven ·.2)).mapM flagValue with
  | .ok given => ofMapping (.mapping given)
  | .error _ => []

/-- The warnings about a configuration file, if there is one, and flags on top of it. -/
def ofLayers (config : Option (String × String)) (flags : Entries) : List Warning :=
  match config with
  | none => ofFlags flags
  | some (path, content) =>
    ofConfig content ++ match load {} path content with
      | .ok _ => ofFlags flags
      | .error _ => []

end Warning

end PixelUnit.Settings
