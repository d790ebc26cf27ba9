import PixelUnit.Number.Shortest
import PixelUnit.Regex.Basic
import PixelUnit.Text.Quoted

/-!
# Values

What settings are given as, before they are checked: values of any kind, as a configuration file or
a caller may supply them. `Value.describe` shows a value inside a message, `Value.asText` is the
text that a value stands for.
-/

namespace PixelUnit

/-- A value of any kind. -/
inductive Value where
  | null
  | bool (b : Bool)
  | int (n : Int)
  | float (x : Float)
  | text (s : String)
  | bytes (bs : List UInt8)
  | list (items : List Value)
  | tuple (items : List Value)
  | mapping (entries : List (String × Value))
  | regex (r : Regex)
  | function (f : String → String → String → Value)

namespace Value

/-- The name of a value's kind, as messages give it. -/
def kindName : Value → String
  | null => "NoneType"
  | bool _ => "bool"
  | int _ => "int"
  | float _ => "float"
  | text _ => "str"
  | bytes _ => "bytes"
  | list _ => "list"
  | tuple _ => "tuple"
  | mapping _ => "dict"
  | regex _ => "Pattern"
  | function _ => "function"

mutual

/-- A value as it is shown. -/
def describe : Value → String
  | null => "None"
  | bool true => "True"
  | bool false => "False"
  | int n => toString n
  | float x => Number.showFloat x
  | text s => Text.quoted s
  | bytes bs => Text.quotedBytes bs
  | list items => "[" ++ ", ".intercalate (describeAll items) ++ "]"
  | tuple [item] => "(" ++ describe item ++ ",)"
  | tuple items => "(" ++ ", ".intercalate (describeAll items) ++ ")"
  | mapping entries => "\x7b" ++ ", ".intercalate (describeEntries entries) ++ "\x7d"
  | regex r => r.describe
  | function _ => "<function>"

/-- Values as they are shown. -/
def describeAll : List Value → List String
  | [] => []
  | v :: vs => describe v :: describeAll vs

/-- The entries of a mapping as they are shown. -/
def describeEntries : List (String × Value) → List String
  | [] => []
  | (k, v) :: es => (Text.quoted k ++ ": " ++ describe v) :: describeEntries es

end

/-- The text that a value stands for: a text itself, any other value as it is shown. -/
def asText : Value → String
  | text s => s
  | v => v.describe

/-- The entry of a mapping under a key. -/
def get? (v : Value) (key : String) : Option Value :=
  match v with
  | mapping entries => (entries.find? (·.1 == key)).map (·.2)
  | _ => none

end Value

end PixelUnit
