/-!
# Names of settings

Every setting has a name in words joined by underscores and one in words joined by capitals.
Either can be given.
-/

namespace PixelUnit.Settings

/-- The settings, in the order in which they are shown. -/
inductive Key where
  | pathPattern
  | variableName
  | fallback
  | fallbackOrigin
  | selectorBlacklist
  | propBlacklist
  | ignoreMark
  | replaces
deriving DecidableEq

namespace Key

/-- All settings. -/
def all : List Key :=
  [pathPattern, variableName, fallback, fallbackOrigin, selectorBlacklist, propBlacklist,
    ignoreMark, replaces]

/-- The name of a setting, with underscores. -/
def name : Key → String
  | pathPattern => "include"
  | variableName => "css_variable"
  | fallback => "css_variable_fallback"
  | fallbackOrigin => "css_variable_fallback_origin"
  | selectorBlacklist => "selector_black_list"
  | propBlacklist => "prop_black_list"
  | ignoreMark => "ignore_identifier"
  | replaces => "replace"

/-- The name of a setting, with capitals. -/
def camelName : Key → String
  | pathPattern => "include"
  | variableName => "cssVariable"
  | fallback => "cssVariableFallback"
  | fallbackOrigin => "cssVariableFallbackOrigin"
  | selectorBlacklist => "selectorBlackList"
  | propBlacklist => "propBlackList"
  | ignoreMark => "ignoreIdentifier"
  | replaces => "replace"

/-- The setting with a given name with underscores. -/
def ofName? (s : String) : Option Key :=
  all.find? (·.name == s)

/-- The setting with a given name of either kind. -/
def ofAnyName? (s : String) : Option Key :=
  all.find? fun k => k.camelName == s || k.name == s

end Key

end PixelUnit.Settings
