import PixelUnit.Forest.Edit
import PixelUnit.Transform.Lengths

/-!
# Gates

Every declaration passes through gates before it is converted, and the first gate that is shut
keeps it as it is. Gates that can never be shut under given settings are left out.
-/

namespace PixelUnit

open Sheet

/-- The gates, in their order. -/
inductive Gate where
  /-- The path of the stylesheet must match, and there must be a custom property. -/
  | path
  /-- The value must contain the unit. -/
  | unit
  /-- Neither value nor property may name the custom property. -/
  | variableName
  /-- The selector must not be blacklisted. -/
  | selector
  /-- The property must not be blacklisted. -/
  | prop
  /-- The value must not contain the ignored text, nor may a comment of that text follow. -/
  | ignore
deriving DecidableEq

namespace Gate

/-- The name of a gate, as it is shown. -/
def name : Gate → String
  | path => "include"
  | unit => "unit"
  | variableName => "variable"
  | selector => "selector"
  | prop => "prop"
  | ignore => "ignore"

/-- All gates. -/
def all : List Gate :=
  [path, unit, variableName, selector, prop, ignore]

/-- Whether a gate can be shut at all. -/
def isUsed (s : Settings) : Gate → Bool
  | path | unit | variableName => true
  | selector => !s.selectorBlacklist.isEmpty
  | prop => !s.propBlacklist.isEmpty
  | ignore => s.ignoredText?.isSome

end Gate

/-- The gates that can be shut under given settings, in their order. -/
def Settings.gates (s : Settings) : List Gate :=
  Gate.all.filter (·.isUsed s)

/-- Whether stylesheets with a given path are to be converted. -/
def Settings.covers (s : Settings) (file : Option String) : Bool :=
  s.isActive && file.any fun path => path != "" && s.pathPattern.any (·.finds path)

/-- Settings as the transform made from them is shown. -/
def Settings.describeTransform (s : Settings) : String :=
  "Px2Var(" ++ s.describe ++ ")"

/-- The unit of the lengths that are converted. -/
def pixelUnit : String := "px"

namespace Forest

/-- The selector of the rule that a node stands in, if it stands in a rule. -/
def selectorOf (f : Forest) (i : NodeId) : Option String :=
  match (f.parentOf i).bind f.contentOf with
  | some (.rule selector) => some selector
  | _ => none

/-- Whether a comment of a given text follows a node. -/
def isFollowedBy (i : NodeId) (text : String) : Edit Bool := do
  let behind ← next i
  let f ← get
  return behind.bind f.contentOf == some (.comment text)

/-- Whether a gate is shut for a declaration, given its property and value and the path of its
stylesheet. -/
def isShut (s : Settings) (i : NodeId) (prop value : String) (file : Option String) :
    Gate → Edit Bool
  | .path => return !s.covers file
  | .unit => return !Text.contains value pixelUnit
  | .variableName =>
    return Text.contains value s.variableName || Text.contains prop s.variableName
  | .selector => return s.selectorBlacklist.hits ((← get).selectorOf i)
  | .prop => return s.propBlacklist.hits (some prop)
  | .ignore =>
    match s.ignoredText? with
    | none => return false
    | some text =>
      if Text.contains value text then return true
      else isFollowedBy i text

/-- The first of some gates that is shut for a declaration. -/
def firstShut (s : Settings) (i : NodeId) (prop value : String) (file : Option String) :
    List Gate → Edit (Option Gate)
  | [] => return none
  | g :: gs => do
    if ← isShut s i prop value file g then return some g
    firstShut s i prop value file gs

/-- The gate that keeps a declaration from being converted, if there is one. -/
def skippedBy (s : Settings) (i : NodeId) (prop value : String) (file : Option String) :
    Edit (Option Gate) :=
  firstShut s i prop value file s.gates

end Forest

end PixelUnit
