import PixelUnit.Json
import PixelUnit.Settings.Key

/-!
# Faults of settings

Why settings cannot be used. A regular expression or a JSON text that cannot be read brings an
explanation of its own, which follows the summary. Not all faults are said to be faults of settings:
some numbers and flags in a regular expression, whatever setting it was given for, and very long
integers in a JSON text are errors of another kind (`Fault.isReported`).
-/

namespace PixelUnit.Settings

/-- What is wrong with settings. -/
inductive Fault where
  | notMapping (kind : String)
  | unknownOption (key : String)
  | repeatedOption (key : String)
  | unexpectedName (key : String)
  | badPathPattern (kind : String)
  | badVariable (kind : String)
  | badFallback
  | notBoolean (key : Key) (kind : String)
  | notEntries (key : Key)
  | notIterable (key : Key)
  | badEntry (key : Key) (kind shown : String)
  | badIgnoreMark
  | badFlag (key : Key) (flag : Char) (source : String)
  | badRegex (key : Key) (source : String) (explanation : String)
  | regexError (cause : Regex.Fault.Cause)
  | badJson (path : String) (explanation : String)
  | longInteger
  | halfPair

namespace Fault

/-- A fault in words, up to an explanation that comes with it. -/
def summary : Fault → String
  | notMapping kind => "options must be a mapping, got " ++ kind
  | unknownOption key => "Unknown option " ++ Text.quoted key
  | repeatedOption key => "Option " ++ Text.quoted key ++ " given more than once"
  | unexpectedName key => "unexpected name " ++ Text.quoted key
  | badPathPattern kind => "include must be a regular expression, got " ++ kind
  | badVariable kind => "css_variable must be a string, got " ++ kind
  | badFallback => "css_variable_fallback must be callable as (origin, num, unit) -> str"
  | notBoolean key kind => key.name ++ " must be a boolean, got " ++ kind
  | notEntries key => key.name ++ " must be a list of strings or patterns"
  | notIterable key => key.name ++ " must be a sequence"
  | badEntry key kind shown =>
    key.name ++ " entries must be strings or patterns, got " ++ kind ++ ": " ++ shown
  | badIgnoreMark => "ignore_identifier must be a string or False"
  | badFlag key flag source =>
    key.name ++ ": unsupported regular expression flag " ++ Text.quoted flag.toString ++ " in " ++
      Text.quoted source
  | badRegex key source _ =>
    key.name ++ ": invalid regular expression " ++ Text.quoted source ++ ": "
  | regexError cause => cause.message
  | badJson path _ => path ++ ": invalid JSON: "
  | longInteger => Json.Fault.Cause.message .longInteger
  | halfPair => Json.Fault.Cause.message .halfPair

/-- Whether a fault is reported as one of settings. -/
def isReported : Fault → Bool
  | regexError _ | longInteger | halfPair => false
  | _ => true

/-- The explanation that comes with a fault. -/
def explanation : Fault → String
  | badRegex _ _ e => e
  | badJson _ e => e
  | _ => ""

/-- A fault in words. -/
def message (f : Fault) : String :=
  f.summary ++ f.explanation

end Fault

end PixelUnit.Settings
