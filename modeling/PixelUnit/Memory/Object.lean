import PixelUnit.Sheet.NodeClass
import PixelUnit.Table

/-!
# Objects

What nodes are made of in memory. A node is an object with attributes. Its raws are an object of
their own, a dict, and so are a value as it was written, the list of its children and the dict of
the iterations over them. An object holds atoms, which never change, and the numbers of other
objects, which more than one object can hold.
-/

namespace PixelUnit

open Sheet

/-- The number of an object. -/
abbrev Address := Nat

/-- What does not change. -/
inductive Atom where
  | none
  | bool (b : Bool)
  | int (i : Int)
  | text (s : String)
deriving DecidableEq

/-- What an object holds. -/
inductive Held where
  | atom (x : Atom)
  | object (a : Address)
deriving DecidableEq

/-- The object, if it is one. -/
def Held.address? : Held → Option Address
  | atom _ => none
  | object a => some a

/-- What kind of object an object is. -/
inductive ObjectKind where
  | node (c : NodeClass)
  | dict
  | list
deriving DecidableEq

/-- Whether objects of a kind are containers. -/
def ObjectKind.isContainer : ObjectKind → Bool
  | node c => c.isContainer
  | dict | list => false

/-- An object. What it holds stands under names, keys or, in a list, under nothing. -/
structure Object where
  kind : ObjectKind
  parts : List (Atom × Held) := []
deriving DecidableEq

namespace Object

/-- What stands under a key. -/
def get? (o : Object) (key : Atom) : Option Held :=
  o.parts.lookup key

/-- The attribute with a name, or what stands under a text. -/
def attribute? (o : Object) (name : String) : Option Held :=
  o.get? (.text name)

/-- The object with an attribute set. -/
def set (o : Object) (name : String) (v : Held) : Object :=
  { o with parts := Table.put (.text name) v o.parts }

/-- An attribute that is set has its value, and no other attribute changes. -/
theorem attribute?_set (o : Object) (name other : String) (v : Held) :
    (o.set name v).attribute? other = if other = name then some v else o.attribute? other := by
  unfold attribute? get? set
  rw [Table.lookup_put]
  by_cases h : other = name <;> simp [h]

end Object

/-- The objects that there are. -/
structure Memory where
  objects : Array Object := #[]

namespace Memory

/-- The number of objects. -/
def size (m : Memory) : Nat :=
  m.objects.size

/-- The object with a given number. -/
def get? (m : Memory) (a : Address) : Option Object :=
  m.objects[a]?

/-- The memory with one object changed. -/
def update (m : Memory) (a : Address) (g : Object → Object) : Memory :=
  ⟨m.objects.modify a g⟩

/-- The memory with one more object, which gets the next number. -/
def add (m : Memory) (o : Object) : Memory :=
  ⟨m.objects.push o⟩

/-- Changing an object changes that object and no other. -/
theorem get?_update (m : Memory) (a b : Address) (g : Object → Object) :
    (m.update a g).get? b = if a = b then (m.get? b).map g else m.get? b :=
  Array.getElem?_modify

theorem get?_update_of_ne {m : Memory} {a b : Address} (h : a ≠ b) (g : Object → Object) :
    (m.update a g).get? b = m.get? b := by
  rw [get?_update, if_neg h]

/-- A new object stands behind all others, which stay as they are. -/
theorem get?_add (m : Memory) (o : Object) (b : Address) :
    (m.add o).get? b = if b = m.size then some o else m.get? b :=
  Array.getElem?_push

theorem get?_add_of_lt {m : Memory} {b : Address} (h : b < m.size) (o : Object) :
    (m.add o).get? b = m.get? b := by
  rw [get?_add, if_neg (Nat.ne_of_lt h)]

theorem get?_add_size (m : Memory) (o : Object) : (m.add o).get? m.size = some o := by
  rw [get?_add, if_pos rfl]

@[simp]
theorem size_update (m : Memory) (a : Address) (g : Object → Object) :
    (m.update a g).size = m.size :=
  Array.size_modify ..

@[simp]
theorem size_add (m : Memory) (o : Object) : (m.add o).size = m.size + 1 :=
  Array.size_push ..

theorem exists_get?_iff {m : Memory} {a : Address} : (∃ o, m.get? a = some o) ↔ a < m.size := by
  constructor
  · rintro ⟨o, ho⟩
    exact (Array.getElem?_eq_some_iff.1 ho).1
  · exact fun h => ⟨_, Array.getElem?_eq_getElem h⟩

/-- What an object holds under a text. -/
def attribute? (m : Memory) (a : Address) (name : String) : Option Held :=
  (m.get? a).bind (·.attribute? name)

/-- The memory with an attribute of an object set. -/
def setAttribute (m : Memory) (a : Address) (name : String) (v : Held) : Memory :=
  m.update a (·.set name v)

end Memory

end PixelUnit
