import PixelUnit.Settings.Blacklist
import PixelUnit.Settings.Key
import PixelUnit.Value

/-!
# Settings

What is to be converted, and how. Settings that exist are valid: whatever is given as a setting is
checked before it becomes one (`PixelUnit.Settings.Checking`).
-/

namespace PixelUnit

/-- What is written as a fallback for a length, made from the length, its number and its unit. -/
abbrev FallbackFunction := String → String → String → Value

/-- The text that keeps a declaration from being converted. -/
inductive Settings.IgnoreMark where
  | off
  | unset
  | text (s : String)
deriving DecidableEq

/-- The settings of a conversion. -/
structure Settings where
  /-- What the path of a stylesheet must match; without it nothing is converted. -/
  pathPattern : Option Regex := none
  /-- The custom property that lengths are multiples of; if it is empty nothing is converted. -/
  variableName : String := ""
  /-- A function that makes fallbacks. -/
  fallbackFunction : Option FallbackFunction := none
  /-- Whether a length is its own fallback. -/
  fallbackOrigin : Bool := false
  /-- Rules whose selectors match are left alone. -/
  selectorBlacklist : Blacklist := []
  /-- Declarations whose properties match are left alone. -/
  propBlacklist : Blacklist := []
  /-- The text that keeps a declaration from being converted. -/
  ignoreMark : Settings.IgnoreMark := .off
  /-- Whether values are replaced; otherwise converted copies are inserted behind them. -/
  replaces : Bool := true

/-- How fallbacks are made. -/
inductive Fallback where
  | none
  | origin
  | function (f : FallbackFunction)

/-- The fallback for a length, if it gets one. -/
def Fallback.make : Fallback → String → String → String → Option String
  | none, _, _, _ => .none
  | origin, length, _, _ => some length
  | function f, length, number, unit => some (f length number unit).asText

namespace Settings

/-- Whether anything can be converted. -/
def isActive (s : Settings) : Bool :=
  s.pathPattern.isSome && s.variableName != ""

/-- How fallbacks are made: a function is preferred to the length itself. -/
def fallback (s : Settings) : Fallback :=
  match s.fallbackFunction with
  | some f => .function f
  | none => if s.fallbackOrigin then .origin else .none

/-- The text that keeps a declaration from being converted, if there is one. -/
def ignoredText? (s : Settings) : Option String :=
  match s.ignoreMark with
  | .text t => if t == "" then none else some t
  | _ => none

/-! ## Showing -/

/-- A mark as a value. -/
def IgnoreMark.toValue : IgnoreMark → Value
  | off => .bool false
  | unset => .null
  | text s => .text s

/-- An entry of a blacklist as a value. -/
def entryValue : Blacklist.Entry → Value
  | .substring s => .text s
  | .regex r => .regex r

/-- A setting as a value. -/
def valueOf (s : Settings) : Key → Value
  | .pathPattern => (s.pathPattern.map Value.regex).getD .null
  | .variableName => .text s.variableName
  | .fallback => (s.fallbackFunction.map Value.function).getD .null
  | .fallbackOrigin => .bool s.fallbackOrigin
  | .selectorBlacklist => .tuple (s.selectorBlacklist.map entryValue)
  | .propBlacklist => .tuple (s.propBlacklist.map entryValue)
  | .ignoreMark => s.ignoreMark.toValue
  | .replaces => .bool s.replaces

/-- Settings as they are shown. -/
def describe (s : Settings) : String :=
  "Options(" ++ ", ".intercalate (Key.all.map fun k => k.name ++ "=" ++ (s.valueOf k).describe) ++
    ")"

end Settings

end PixelUnit
