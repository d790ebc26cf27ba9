import PixelUnit.Forest.Edit
import PixelUnit.Regex.Basic

/-!
# Iterating over a forest

`Forest.each` visits the children of a container, `Forest.walk` all nodes below it, every node
before those below it. A visit may change the forest; a cursor on the container sees to it that the
iteration goes on behind the node visited last. A visit may also end the iteration, and it carries
a state of its own along.

A visit that keeps adding nodes ahead of itself would never come to an end, so iterations have a
bound, and fail if they reach it.
-/

namespace PixelUnit

open Sheet

/-- Whether an iteration goes on after a visit. -/
inductive Verdict where
  | proceed
  | stop
deriving DecidableEq

/-- Actions on a forest with a state of the caller's. -/
abbrev Walk (σ : Type) := StateT σ Edit

/-- What is done at a node: its number and its position are given. -/
abbrev Visit (σ : Type) := NodeId → Int → Walk σ Verdict

/-- Which declarations are visited. -/
inductive PropFilter where
  | all
  | exactly (prop : String)
  | matching (r : Regex)

/-- Whether a property passes a filter. -/
def PropFilter.accepts : PropFilter → String → Bool
  | all, _ => true
  | exactly p, prop => prop == p
  | matching r, prop => r.finds prop

namespace Slot

/-- Starts a cursor at the first child. -/
def startCursor (s : Slot) : Slot :=
  { s with cursors := s.cursors ++ [⟨s.lastKey + 1, 0⟩], lastKey := s.lastKey + 1 }

/-- Moves one cursor on by one. -/
def advanceCursor (s : Slot) (key : Nat) : Slot :=
  { s with cursors := s.cursors.map fun c =>
      if c.key == key then { c with position := c.position + 1 } else c }

/-- Drops one cursor. -/
def endCursor (s : Slot) (key : Nat) : Slot :=
  { s with cursors := s.cursors.filter (·.key != key) }

/-- The position of one cursor. -/
def cursor? (s : Slot) (key : Nat) : Option Int :=
  (s.cursors.find? (·.key == key)).map Cursor.position

end Slot

namespace Forest

/-- Runs an action with a new cursor on a container, which is dropped however the action ends. -/
def withCursor {σ α : Type} (c : NodeId) (act : Nat → Walk σ α) : Walk σ α := fun s f =>
  let key := ((f.get? c).map Slot.lastKey).getD 0 + 1
  match act key s (f.update c Slot.startCursor) with
  | .ok a f => .ok a (f.update c (·.endCursor key))
  | .error e f => .error e (f.update c (·.endCursor key))

/-- Visits the children of a container from a cursor on, at most as many as the bound says. Whether
the end was reached is returned. -/
def eachFrom {σ : Type} (visit : Visit σ) (c : NodeId) (key : Nat) : Nat → Walk σ Bool
  | 0 => throw .unfinished
  | bound + 1 => do
    let f ← getThe Forest
    let position := ((f.get? c).bind (·.cursor? key)).getD 0
    if position < (f.childrenOf c).length then
      let i ← childAt c position
      match ← visit i position with
      | .stop => return false
      | .proceed =>
        modifyThe Forest fun f => f.update c (·.advanceCursor key)
        eachFrom visit c key bound
    else return true

/-- Visits the children of a container. Whether no visit ended the iteration is returned. -/
def each {σ : Type} (bound : Nat) (visit : Visit σ) (c : NodeId) : Walk σ Bool :=
  withCursor c fun key => eachFrom visit c key bound

/-- Visits all nodes below a container, down to a given depth. Whether no visit ended the iteration
is returned. -/
def walk {σ : Type} (bound : Nat) (visit : Visit σ) : Nat → NodeId → Walk σ Bool
  | 0, _ => throw .unfinished
  | depth + 1, c =>
    each bound (fun i position => do
      match ← visit i position with
      | .stop => return .stop
      | .proceed =>
        if (← getThe Forest).isContainer i then
          return if ← walk bound visit depth i then .proceed else .stop
        else return .proceed) c

/-- A visit that is made only at declarations whose properties pass a filter. -/
def onDeclarations {σ : Type} (filter : PropFilter) (visit : Visit σ) : Visit σ :=
  fun i position => do
    match (← getThe Forest).contentOf i with
    | some (.declaration prop _ _) =>
      if filter.accepts prop then visit i position else return .proceed
    | _ => return .proceed

end Forest

end PixelUnit
