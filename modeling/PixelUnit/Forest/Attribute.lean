import PixelUnit.Forest.Edit
import PixelUnit.Sheet.NodeClass

/-!
# Attributes and copies

What a node says can be changed attribute by attribute. An attribute that means nothing for a node
can be set all the same; the node then only remembers its name. A copy of a node is a copy of the
whole tree below it, without a parent and without iterations; attributes can be given anew for its
topmost node, as far as that has them.

The links of a node and what it has by its class are not among these attributes: giving them anew is
said of the objects that nodes are (`Memory.clone`).
-/

namespace PixelUnit

open Sheet

/-- An attribute with its value. One that is no part of a node is known by its name. -/
inductive Attribute where
  | prop (s : String)
  | value (s : String)
  | important (b : Bool)
  | selector (s : String)
  | name (s : String)
  | params (s : String)
  | body (b : Bool)
  | file (f : Option String)
  | text (s : String)
  | raws (r : Raws)
  | other (name : String) (free : name ∉ NodeClass.reservedNames ++ NodeClass.fieldNames)

namespace Attribute

/-- The name of an attribute. -/
def label : Attribute → String
  | prop _ => "prop"
  | value _ => "value"
  | important _ => "important"
  | selector _ => "selector"
  | name _ => "name"
  | params _ => "params"
  | body _ => "body"
  | file _ => "file"
  | text _ => "text"
  | raws _ => "raws"
  | other n _ => n

/-- The content with an attribute set, if that is a part of it. -/
def setIn? : Attribute → Content → Option Content
  | prop s, .declaration _ v i => some (.declaration s v i)
  | value s, .declaration p _ i => some (.declaration p s i)
  | important b, .declaration p v _ => some (.declaration p v b)
  | selector s, .rule _ => some (.rule s)
  | name s, .atRule _ p b => some (.atRule s p b)
  | params s, .atRule n _ b => some (.atRule n s b)
  | body b, .atRule n p _ => some (.atRule n p b)
  | file f, .root _ => some (.root f)
  | text s, .comment _ => some (.comment s)
  | _, _ => none

end Attribute

namespace Slot

/-- The node with an attribute set, if it has that attribute of itself. -/
def set? (s : Slot) : Attribute → Option Slot
  | .raws raws => some { s with raws }
  | a => (a.setIn? s.content).map fun content => { s with content }

/-- A part of the content is an attribute of the node itself. -/
theorem set?_of_setIn? {s : Slot} {a : Attribute} {content : Content}
    (h : a.setIn? s.content = some content) : s.set? a = some { s with content } := by
  unfold set?
  split
  · cases h
  · rw [h]
    rfl

/-- Setting an attribute of the node itself changes its raws or its content. -/
theorem eq_of_set? {s t : Slot} {a : Attribute} (h : s.set? a = some t) :
    (∃ raws, t = { s with raws }) ∨
      ∃ content, a.setIn? s.content = some content ∧ t = { s with content } := by
  unfold set? at h
  split at h
  · next raws =>
    cases h
    exact Or.inl ⟨raws, rfl⟩
  · obtain ⟨content, hcontent, rfl⟩ := Option.map_eq_some_iff.1 h
    exact Or.inr ⟨content, hcontent, rfl⟩

/-- Whether a node has an attribute, of itself or because it was set. -/
def has (s : Slot) (a : Attribute) : Bool :=
  (s.set? a).isSome || s.extras.contains a.label

/-- The node with an attribute set. -/
def set (s : Slot) (a : Attribute) : Slot :=
  (s.set? a).getD { s with extras := a.label :: s.extras }

end Slot

namespace Forest

/-- Sets an attribute of a node. -/
def setAttribute (i : NodeId) (a : Attribute) : Edit Unit :=
  modify fun f => f.update i (·.set a)

/-- Changes how a node is written. -/
def setRaws (i : NodeId) (g : Raws → Raws) : Edit Unit :=
  modify fun f => f.update i fun s => { s with raws := g s.raws }

/-! ## Copies -/

mutual

/-- Copies the tree below a node, down to a given depth, to a new parent. -/
def copyTo (f : Forest) (parent : Option NodeId) : Nat → NodeId → NodeId × Forest
  | 0, i => (i, f)
  | depth + 1, i =>
    match f.get? i with
    | none => (i, f)
    | some s =>
      let (j, f) := f.add { s with parent, children := [], cursors := [] }
      let (ids, f) := f.copyAllTo j depth s.children
      (j, f.update j fun t => { t with children := ids })

/-- Copies the trees below nodes, down to a given depth, to a new parent. -/
def copyAllTo (f : Forest) (parent : NodeId) (depth : Nat) : List NodeId → List NodeId × Forest
  | [] => ([], f)
  | i :: is =>
    let (j, f) := f.copyTo (some parent) depth i
    let (js, f) := f.copyAllTo parent depth is
    (j :: js, f)

end

/-- Sets attributes of a copy, each of which it must have. -/
def overrideAll (j : NodeId) : List Attribute → Edit Unit
  | [] => pure ()
  | a :: as => do
    match (← get).get? j with
    | none => pure ()
    | some s =>
      unless s.has a do throw (.noAttribute s.content.className a.label)
      setAttribute j a
      overrideAll j as

/-- Copies the tree below a node, with some attributes of the node given anew. -/
def clone (i : NodeId) (overrides : List Attribute) : Edit NodeId := do
  let j ← modifyGet fun f => f.copyTo none (f.size + 1) i
  overrideAll j overrides
  return j

end Forest

end PixelUnit
