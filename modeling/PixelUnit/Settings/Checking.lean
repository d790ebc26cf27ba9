import PixelUnit.Settings.Basic
import PixelUnit.Settings.Fault

/-!
# Checking settings

Values become settings. Each setting has a check of its own; when several values cannot be used,
the fault of the first one counts, in the order in which `Settings.update` checks them.
-/

namespace PixelUnit.Settings

variable [Regex.CharacterNames]

/-- Values for some settings. -/
abbrev Overrides := List (Key × Value)

/-- The value given for a setting. -/
def Overrides.get? (o : Overrides) (k : Key) : Option Value :=
  (o.find? (·.1 == k)).map (·.2)

/-! ## One setting -/

/-- The regular expression with a given text. -/
def compileFor (k : Key) (source shown : String) (flags : Regex.Flags) : Except Fault Regex :=
  match Regex.compile source flags with
  | .ok r => .ok r
  | .error e =>
    if e.cause.isSyntax then .error (.badRegex k shown (e.message source.toList))
    else .error (.regexError e.cause)

/-- What paths must match: a regular expression or its text. -/
def checkPathPattern : Value → Except Fault (Option Regex)
  | .null => .ok none
  | .regex r => .ok (some r)
  | .text s => (compileFor .pathPattern s s {}).map some
  | v => .error (.badPathPattern v.kindName)

/-- The custom property: a text. -/
def checkVariableName : Value → Except Fault String
  | .null => .ok ""
  | .text s => .ok s
  | v => .error (.badVariable v.kindName)

/-- What makes fallbacks: a function. -/
def checkFallback : Value → Except Fault (Option FallbackFunction)
  | .null => .ok none
  | .function f => .ok (some f)
  | _ => .error .badFallback

/-- A setting that is on or off. -/
def checkBoolean (k : Key) : Value → Except Fault Bool
  | .bool b => .ok b
  | v => .error (.notBoolean k v.kindName)

/-- An entry of a blacklist: a text or a regular expression. -/
def checkEntry (k : Key) : Value → Except Fault Blacklist.Entry
  | .text s => .ok (.substring s)
  | .regex r => .ok (.regex r)
  | v => .error (.badEntry k v.kindName v.describe)

/-- A blacklist: a sequence of entries. -/
def checkBlacklist (k : Key) : Value → Except Fault Blacklist
  | .list vs => vs.mapM (checkEntry k)
  | .tuple vs => vs.mapM (checkEntry k)
  | _ => .error (.notEntries k)

/-- The text that keeps a declaration from being converted. -/
def checkIgnoreMark : Value → Except Fault IgnoreMark
  | .null => .ok .unset
  | .bool false => .ok .off
  | .text s => .ok (.text s)
  | _ => .error .badIgnoreMark

/-! ## All settings -/

/-- The setting that a value gives, or the old one if none is given. -/
def choose {α : Type} (old : α) (check : Value → Except Fault α) : Option Value → Except Fault α
  | none => .ok old
  | some v => check v

/-- Settings with some of them given anew. -/
def update (s : Settings) (o : Overrides) : Except Fault Settings := do
  let pathPattern ← choose s.pathPattern checkPathPattern (o.get? .pathPattern)
  let variableName ← choose s.variableName checkVariableName (o.get? .variableName)
  let fallbackFunction ← choose s.fallbackFunction checkFallback (o.get? .fallback)
  let fallbackOrigin ←
    choose s.fallbackOrigin (checkBoolean .fallbackOrigin) (o.get? .fallbackOrigin)
  let replaces ← choose s.replaces (checkBoolean .replaces) (o.get? .replaces)
  let selectorBlacklist ←
    choose s.selectorBlacklist (checkBlacklist .selectorBlacklist) (o.get? .selectorBlacklist)
  let propBlacklist ←
    choose s.propBlacklist (checkBlacklist .propBlacklist) (o.get? .propBlacklist)
  let ignoreMark ← choose s.ignoreMark checkIgnoreMark (o.get? .ignoreMark)
  return { pathPattern, variableName, fallbackFunction, fallbackOrigin, selectorBlacklist,
           propBlacklist, ignoreMark, replaces }

end PixelUnit.Settings
