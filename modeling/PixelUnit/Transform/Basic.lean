import PixelUnit.Forest.Attribute
import PixelUnit.Forest.Walk
import PixelUnit.Log
import PixelUnit.Settings.Mapping
import PixelUnit.Sheet.Reading
import PixelUnit.Transform.Gates

/-!
# The transform

The transform visits all declarations of a stylesheet. One that no gate keeps back, and whose value
has lengths to convert, gets the converted value, or a copy with the converted value behind it.
-/

namespace PixelUnit

open Sheet

namespace Forest

/-- A record of the transform. -/
def debugRecord (text : String) : Record :=
  ⟨.debug, .transform, text⟩

/-- Makes a record. -/
def note (text : String) : Walk Log Unit :=
  modify (· ++ [debugRecord text])

/-- Converts a declaration that is at position `index` in a stylesheet with a given path. Whether
anything was converted is returned. -/
def visitDeclaration (s : Settings) (file : Option String) (i : NodeId) (index : Int) :
    Walk Log Bool := do
  match (← getThe Forest).contentOf i with
  | some (.declaration prop value _) =>
    match ← skippedBy s i prop value file with
    | some gate =>
      unless gate == .path do
        note ("skip " ++ prop ++ ": " ++ value ++ " (" ++ gate.name ++ ")")
      return false
    | none =>
      let converted := s.convert value
      if converted == value then
        note ("skip " ++ prop ++ ": " ++ value ++ " (nothing to rewrite)")
        return false
      if s.replaces then
        setAttribute i (.value converted)
      else
        match (← getThe Forest).parentOf i with
        | some p =>
          let copy ← clone i [.value converted]
          insertAfter p (.index index) [copy]
        | none =>
          note ("cannot insert next to detached declaration " ++ prop)
          return false
      note ("rewrote " ++ prop ++ ": " ++ converted)
      return true
  | _ => return false

/-- The path that a root goes by. -/
def fileOf (f : Forest) (root : NodeId) : Option String :=
  match f.contentOf root with
  | some (.root file) => file
  | _ => none

theorem fileOf_eq {f : Forest} {root : NodeId} {file : Option String}
    (h : f.contentOf root = some (.root file)) : f.fileOf root = file := by
  unfold fileOf
  rw [h]

/-- A bound on the iterations of the transform: it adds at most one node behind each one. -/
def transformBound (f : Forest) : Nat :=
  2 * f.size + 2

/-- Visits the declarations below a container whose properties pass a filter, for a stylesheet with
a given path. Whether the end was reached is returned, the number of declarations converted, and
what was recorded. -/
def visitBelow (s : Settings) (file : Option String) (filter : PropFilter) (c : NodeId) :
    Edit (Bool × Nat × Log) := do
  let f ← get
  let visit : Visit (Nat × Log) := fun i index (count, log) => do
    let (done, log) ← (visitDeclaration s file i index).run log
    return (.proceed, (if done then count + 1 else count, log))
  (walk f.transformBound (onDeclarations filter visit) (f.size + 1) c).run (0, [])

/-- Converts all declarations of a stylesheet. Their number is returned, and what was recorded. -/
def transform (s : Settings) (root : NodeId) : Edit (Nat × Log) := do
  let (_, result) ← visitBelow s ((← get).fileOf root) .all root
  return result

/-- A forest that holds one tree. -/
def ofTree (t : Tree) : NodeId × Forest :=
  ({} : Forest).plant none t

end Forest

/-! ## Trees and texts -/

/-- A tree after the transform, how many declarations were converted, and what was recorded. -/
structure Transformed where
  tree : Tree
  count : Nat
  log : Log

/-- A tree transformed. -/
def Settings.transformTree (s : Settings) (t : Tree) : Except EditError Transformed :=
  let (root, f) := Forest.ofTree t
  match (Forest.transform s root).run f with
  | .ok (count, log) f => .ok ⟨f.view root, count, log⟩
  | .error e _ => .error e

/-- Why a stylesheet is not transformed. -/
inductive TransformError where
  | sheet (fault : Fault)
  | settings (fault : Settings.Fault)
  | edit (error : EditError)

/-- The text of a stylesheet transformed; `file` is the path that it goes by, and `overrides` are
settings on top of `base`. -/
def transformText [Regex.CharacterNames] (css : String) (file : Option String) (base : Settings)
    (overrides : Settings.Entries) : Except TransformError String := do
  let tree ← (SourceReading.ofSource css file).tree.mapError .sheet
  let settings ← (base.merge overrides).mapError .settings
  let done ← (settings.transformTree tree).mapError .edit
  return done.tree.text false

end PixelUnit
