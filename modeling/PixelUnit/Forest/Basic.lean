import PixelUnit.Sheet.Tree

/-!
# Forests

Trees whose nodes have identities, so that they can be changed, moved and referred to while others
look on. A forest is a table of nodes; a node knows its parent and its children by their numbers,
and keeps the cursors of the iterations that run over its children. `Forest.view` is the tree that
hangs below a node, and `Forest.plant` adds a tree to a forest.
-/

namespace PixelUnit

open Sheet

/-- The number of a node. -/
abbrev NodeId := Nat

/-- How far an iteration over the children of a node has come. -/
structure Cursor where
  key : Nat
  position : Int
deriving DecidableEq

/-- A node of a forest. -/
structure Slot where
  content : Content
  raws : Raws := {}
  parent : Option NodeId := none
  children : List NodeId := []
  /-- The cursors of the iterations that run, in the order in which they were started. -/
  cursors : List Cursor := []
  /-- The key of the latest cursor. -/
  lastKey : Nat := 0
  /-- Names of attributes that were set and mean nothing for a node of this content. -/
  extras : List String := []

/-- A table of nodes. -/
structure Forest where
  slots : Array Slot := #[]

namespace Forest

/-- The number of nodes. -/
def size (f : Forest) : Nat :=
  f.slots.size

/-- The node with a given number. -/
def get? (f : Forest) (i : NodeId) : Option Slot :=
  f.slots[i]?

/-- The forest with one node changed. -/
def update (f : Forest) (i : NodeId) (g : Slot → Slot) : Forest :=
  ⟨f.slots.modify i g⟩

/-- The forest with one more node, which gets the next number. -/
def add (f : Forest) (s : Slot) : NodeId × Forest :=
  (f.size, ⟨f.slots.push s⟩)

/-- Changing a node changes that node and no other. -/
theorem get?_update (f : Forest) (i j : NodeId) (g : Slot → Slot) :
    (f.update i g).get? j = if i = j then (f.get? j).map g else f.get? j := by
  exact Array.getElem?_modify

/-- A new node stands behind all others, which stay as they are. -/
theorem get?_add (f : Forest) (s : Slot) (j : NodeId) :
    (f.add s).2.get? j = if j = f.size then some s else f.get? j := by
  exact Array.getElem?_push

/-- The content of a node. -/
def contentOf (f : Forest) (i : NodeId) : Option Content :=
  (f.get? i).map Slot.content

/-- The parent of a node. -/
def parentOf (f : Forest) (i : NodeId) : Option NodeId :=
  (f.get? i).bind Slot.parent

/-- The children of a node. -/
def childrenOf (f : Forest) (i : NodeId) : List NodeId :=
  ((f.get? i).map Slot.children).getD []

/-- Whether a node has children, or could have some. -/
def isContainer (f : Forest) (i : NodeId) : Bool :=
  (f.contentOf i).any Content.isContainer

/-! ## Trees in a forest -/

/-- A tree for a node that does not exist. -/
def noTree : Tree :=
  .node (.comment "") {} []

/-- The tree below a node, down to a given depth. -/
def viewTo (f : Forest) : Nat → NodeId → Tree
  | 0, _ => noTree
  | depth + 1, i =>
    match f.get? i with
    | none => noTree
    | some s => .node s.content s.raws (s.children.map (f.viewTo depth))

/-- The tree below a node. No chain of children is longer than the forest, unless it closes a
cycle. -/
def view (f : Forest) (i : NodeId) : Tree :=
  f.viewTo (f.size + 1) i

mutual

/-- Adds a tree below a parent. -/
def plant (f : Forest) (parent : Option NodeId) : Tree → NodeId × Forest
  | .node content raws children =>
    let (i, f) := f.add { content, raws, parent }
    let (ids, f) := f.plantAll i children
    (i, f.update i fun s => { s with children := ids })

/-- Adds trees below a parent. -/
def plantAll (f : Forest) (parent : NodeId) : List Tree → List NodeId × Forest
  | [] => ([], f)
  | t :: ts =>
    let (i, f) := f.plant (some parent) t
    let (ids, f) := f.plantAll parent ts
    (i :: ids, f)

end

/-- The topmost node above a node, unless that is more than `fuel` steps up. -/
def topFrom (f : Forest) : Nat → NodeId → NodeId
  | 0, i => i
  | fuel + 1, i =>
    match f.parentOf i with
    | some p => f.topFrom fuel p
    | none => i

/-- The root that a node hangs from, if what it hangs from is a root. -/
def rootOf (f : Forest) (i : NodeId) : Option NodeId :=
  let top := f.topFrom f.size i
  match f.contentOf top with
  | some (.root _) => some top
  | _ => none

end Forest

end PixelUnit
