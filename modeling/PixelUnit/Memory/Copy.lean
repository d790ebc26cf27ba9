import PixelUnit.Memory.Object
import PixelUnit.Text.Quoted

/-!
# Copies in memory

A copy of an object is a new object that holds copies of what the object holds. What has been copied
is kept in a memo, so that an object that is come to again is not copied again: all its holders get
the same copy, and copying ends although nodes hold their parents and parents their children. An
object is in the memo before what it holds is copied.

Containers see to their own copies. A copy of a container has no iterations, and its parent is the
copy of the parent if that has been copied by then, and none otherwise. The parent of a node that is
copied by itself is taken away for as long as that takes.
-/

namespace PixelUnit

open Sheet

/-! ## Attributes that can be set -/

/-- Why a copy cannot be made as it is asked for. -/
inductive CopyError where
  /-- The node does not have an attribute. -/
  | noAttribute (c : NodeClass) (name : String)
  /-- An attribute cannot be set. -/
  | readOnly (c : NodeClass) (name : String)
  /-- A class is to be given anew, by something that is no class. -/
  | notAClass
  /-- An attribute is to be computed from a list of children that is none. What that leads to
  depends on what it is. -/
  | notComputed (name : String)
  | unfinished
deriving DecidableEq

/-- Whether an attribute is missing or cannot be set. -/
def CopyError.isAboutAttribute : CopyError → Bool
  | noAttribute .. | readOnly .. => true
  | notAClass | notComputed _ | unfinished => false

/-- The failure in words, where it is about an attribute. -/
def CopyError.message? : CopyError → Option String
  | noAttribute c name => some (c.name ++ " has no attribute " ++ Text.quoted name)
  | readOnly c name =>
    if c.computedNames.contains name then
      some ("property " ++ Text.quoted name ++ " of " ++ Text.quoted c.name ++
        " object has no setter")
    else some ("attribute " ++ Text.quoted name ++ " of 'Node' objects is not writable")
  | notAClass | notComputed _ | unfinished => none

/-- An attribute that a copy is to have. The dict of all its attributes is not among those that can
be given, nor can one go by the name of the node that is copied. -/
structure Override where
  name : String
  value : Held
  ordinary : name ≠ "__dict__" ∧ name ≠ "self"

/-- Why an attribute of a node cannot be set, given whether the node has it of its own. -/
def Sheet.NodeClass.refusal? (c : NodeClass) (own : Bool) (name : String) : Option CopyError :=
  if name = "__class__" then some .notAClass
  else if c.readOnlyNames.contains name then some (.readOnly c name)
  else if own || c.names.contains name then none
  else some (.noAttribute c name)

/-- The object with attributes set one after the other. -/
def Object.setAll (o : Object) (xs : List Override) : Object :=
  xs.foldl (fun o x => o.set x.name x.value) o

/-- Why an attribute of an object cannot be set. -/
def Object.refusal? (o : Object) (name : String) : Option CopyError :=
  match o.kind with
  | .node c => NodeClass.refusal? c (o.attribute? name).isSome name
  | _ => some .unfinished

namespace Memory

/-! ## Copies -/

/-- What a copy starts from, and what it leads to. -/
structure Copying where
  memory : Memory
  /-- Objects with their copies, the latest first. -/
  memo : List (Address × Address) := []

namespace Copying

/-- The copy of an object, if it has been copied. -/
def copyOf? (st : Copying) (a : Address) : Option Address :=
  st.memo.lookup a

/-- An object is to be copied: its copy is there, and holds nothing yet. -/
def enter (st : Copying) (a : Address) (k : ObjectKind) : Copying where
  memory := st.memory.add ⟨k, []⟩
  memo := (a, st.memory.size) :: st.memo

/-- The object with a given number holds what it is to hold. -/
def finish (st : Copying) (b : Address) (parts : List (Atom × Held)) : Copying :=
  { st with memory := st.memory.update b fun o => { o with parts } }

end Copying

/-- Something that is done while copying; it can fail if objects are missing. -/
abbrev Copier := StateT Copying Option

/-- Makes a dict without entries. -/
def newDict : Copier Held := do
  let st ← get
  set { st with memory := st.memory.add ⟨.dict, []⟩ }
  return .object st.memory.size

/-- The name of the dict of iterations. -/
def iterationsKey : Atom :=
  .text "_iterations_"

/-- The name of the parent. -/
def parentKey : Atom :=
  .text "parent"

/-- Copies a part of an object, given how to copy what it holds. -/
def copyPart (k : ObjectKind) (copy : Held → Copier Held) (key : Atom) (v : Held) :
    Copier Held := do
  if k.isContainer && key == iterationsKey then newDict
  else if k.isContainer && key == parentKey then
    match v.address?.bind (← get).copyOf? with
    | some b => return .object b
    | none => return .atom .none
  else copy v

/-- Copies the parts of an object one after the other. -/
def copyParts (k : ObjectKind) (copy : Held → Copier Held) :
    List (Atom × Held) → Copier (List (Atom × Held))
  | [] => return []
  | (key, v) :: rest => do
    let w ← copyPart k copy key v
    let others ← copyParts k copy rest
    return (key, w) :: others

/-- Copies what an object holds, unless more than `depth` objects lead to one another. -/
def copy : Nat → Held → Copier Held
  | _, .atom x => return .atom x
  | 0, .object _ => failure
  | depth + 1, .object a => do
    let st ← get
    match st.copyOf? a with
    | some b => return .object b
    | none =>
      match st.memory.get? a with
      | none => failure
      | some o =>
        set (st.enter a o.kind)
        let parts ← copyParts o.kind (copy depth) o.parts
        modify (·.finish st.memory.size parts)
        return .object st.memory.size

/-- A copy of an object by itself, with the memory that it is in. While it is made, the object has
no parent; there are no more objects that lead to one another than there are objects. -/
def copyAlone (m : Memory) (a : Address) : Option (Address × Memory) := do
  let parent ← m.attribute? a "parent"
  let (v, st) ← (copy (m.size + 1) (.object a)).run ⟨m.setAttribute a "parent" (.atom .none), []⟩
  return (← v.address?, st.memory.setAttribute a "parent" parent)

/-! ## Attributes given anew -/

/-- What is done with objects. -/
abbrev Action := EStateM CopyError Memory

/-- Whether an object holds a list of children. -/
def hasList (m : Memory) (o : Object) : Bool :=
  match (o.attribute? "nodes").bind (·.address?) with
  | some l => (m.get? l).any (·.kind = .list)
  | none => false

/-- What setting an attribute fails with: whether it is there is seen before whether it can be set,
and so it is computed if it can be. -/
def fault (m : Memory) (o : Object) : CopyError → CopyError
  | .readOnly c name =>
    if c.computedNames.contains name && !m.hasList o then .notComputed name else .readOnly c name
  | e => e

/-- Sets attributes of a node one after the other, up to the first that cannot be set. -/
def overrideAll (b : Address) : List Override → Action Unit
  | [] => return ()
  | x :: xs => do
    let m ← get
    match m.get? b with
    | none => throw .unfinished
    | some o =>
      match o.refusal? x.name with
      | some e => throw (m.fault o e)
      | none =>
        set (m.setAttribute b x.name x.value)
        overrideAll b xs

/-- Copies a node, with some of its attributes given anew. -/
def clone (a : Address) (overrides : List Override) : Action Address := do
  match copyAlone (← get) a with
  | none => throw .unfinished
  | some (b, m) =>
    set m
    overrideAll b overrides
    return b

end Memory

end PixelUnit
