import PixelUnit.Forest.Basic

/-!
# Changing a forest

Nodes are added to containers, moved between them and removed from them. An action that fails
leaves the forest as it was when it failed: nodes that were taken from their parents before stay
so. A position among children is counted from their end if it is negative; where a new child is to
go, a position beyond either end means that end.

Iterations over the children of a container stay on course: whenever children come or go at or
before the position of a cursor, the cursor moves along.
-/

namespace PixelUnit

open Sheet

/-- Why an action on a forest fails. -/
inductive EditError where
  | notAChild (node : Tree)
  | outOfRange
  | noAttribute (className name : String)
  | unfinished

/-- A failure in words. -/
def EditError.message : EditError → String
  | notAChild t => t.describe ++ " is not a child of this node"
  | outOfRange => "position out of range"
  | noAttribute className name => className ++ " has no attribute " ++ Text.quoted name
  | unfinished => "the iteration did not come to an end"

/-- Actions on a forest. -/
abbrev Edit := EStateM EditError Forest

/-- A place among the children of a container. -/
inductive Spot where
  | index (i : Int)
  | node (i : NodeId)

/-! ## Positions -/

/-- Where a new child goes that is to go to position `i` of `n` children. -/
def clampIndex (n : Nat) (i : Int) : Nat :=
  if i < 0 then (n + i).toNat else min i.toNat n

/-- The child at position `i` of `n` children. -/
def resolveIndex? (n : Nat) (i : Int) : Option Nat :=
  let k := if i < 0 then n + i else i
  if 0 ≤ k && k < n then some k.toNat else none

/-- A list with others put in at position `i`. -/
def spliceAt {α : Type} (xs : List α) (i : Int) (new : List α) : List α :=
  let k := clampIndex xs.length i
  xs.take k ++ new ++ xs.drop k

/-- The cursor moved by an amount, if its position satisfies `p`. -/
def Cursor.shift (c : Cursor) (p : Int → Bool) (amount : Int) : Cursor :=
  if p c.position then { c with position := c.position + amount } else c

namespace Slot

/-- Moves the cursors whose positions satisfy `p`. -/
def shiftCursors (s : Slot) (p : Int → Bool) (amount : Int) : Slot :=
  { s with cursors := s.cursors.map (·.shift p amount) }

/-- Puts children in at position `index`, before the cursors there. -/
def insertBefore (s : Slot) (index : Int) (new : List NodeId) : Slot :=
  { s with children := spliceAt s.children index new }.shiftCursors (index ≤ ·) new.length

/-- Puts children in behind position `index`, before the cursors behind it. -/
def insertAfter (s : Slot) (index : Int) (new : List NodeId) : Slot :=
  { s with children := spliceAt s.children (index + 1) new }.shiftCursors (index < ·) new.length

/-- Takes out the child with number `k`, which is at position `index`. -/
def removeAt (s : Slot) (k : Nat) (index : Int) : Slot :=
  { s with children := s.children.eraseIdx k }.shiftCursors (index ≤ ·) (-1)

end Slot

namespace Forest

/-- The child at a position. -/
def childAt (c : NodeId) (index : Int) : Edit NodeId := do
  let children := (← get).childrenOf c
  match (resolveIndex? children.length index).bind (children[·]?) with
  | some i => return i
  | none => throw .outOfRange

/-- The position of a place among the children of a container. -/
def locate (c : NodeId) : Spot → Edit Int
  | .index i => return i
  | .node i => do
    let f ← get
    match (f.childrenOf c).idxOf? i with
    | some k => return k
    | none => throw (.notAChild (f.view i))

/-- Removes the child at a place. -/
def removeChild (c : NodeId) (spot : Spot) : Edit Unit := do
  let index ← locate c spot
  let children := (← get).childrenOf c
  match resolveIndex? children.length index with
  | none => throw .outOfRange
  | some k =>
    modify fun f => f.update c (·.removeAt k index)
    match children[k]? with
    | some i => modify fun f => f.update i fun s => { s with parent := none }
    | none => pure ()

/-- Removes a node from its parent, if it has one. -/
def remove (i : NodeId) : Edit Unit := do
  match (← get).parentOf i with
  | some p => removeChild p (.node i)
  | none => pure ()

/-- Makes a container the parent of nodes, each of which is removed from its old parent first. -/
def adopt (c : NodeId) : List NodeId → Edit Unit
  | [] => pure ()
  | i :: is => do
    remove i
    modify fun f => f.update i fun s => { s with parent := some c }
    adopt c is

/-- Adds nodes behind the children of a container. -/
def append (c : NodeId) (new : List NodeId) : Edit Unit := do
  adopt c new
  modify fun f => f.update c fun s => { s with children := s.children ++ new }

/-- Adds nodes before a place among the children of a container. -/
def insertBefore (c : NodeId) (spot : Spot) (new : List NodeId) : Edit Unit := do
  adopt c new
  let index ← locate c spot
  modify fun f => f.update c (·.insertBefore index new)

/-- Adds nodes behind a place among the children of a container. -/
def insertAfter (c : NodeId) (spot : Spot) (new : List NodeId) : Edit Unit := do
  adopt c new
  let index ← locate c spot
  modify fun f => f.update c (·.insertAfter index new)

/-- Adds a new node, with children that are moved to it one by one. -/
def create (content : Content) (raws : Raws) (children : List NodeId) : Edit NodeId := do
  let i ← modifyGet fun f => f.add { content, raws }
  children.forM fun child => append i [child]
  return i

/-! ## Neighbours -/

/-- The node behind a node among the children of its parent. -/
def next (i : NodeId) : Edit (Option NodeId) := do
  let f ← get
  match f.parentOf i with
  | none => return none
  | some p =>
    let index ← locate p (.node i)
    return (f.childrenOf p)[index.toNat + 1]?

/-- The node before a node among the children of its parent. -/
def prev (i : NodeId) : Edit (Option NodeId) := do
  let f ← get
  match f.parentOf i with
  | none => return none
  | some p =>
    let index ← locate p (.node i)
    return if 0 < index then (f.childrenOf p)[index.toNat - 1]? else none

end Forest

end PixelUnit
