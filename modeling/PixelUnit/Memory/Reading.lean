import PixelUnit.Memory.Object
import PixelUnit.Sheet.Tree

/-!
# Trees in memory

What the objects of a node say: its content, its raws and its children, and so the tree below it
(`Memory.treeAt`). Nothing is read from objects that do not make up nodes as they should.
-/

namespace PixelUnit

open Sheet

namespace Object

/-- The text under a key. -/
def text? (o : Object) (name : String) : Option String :=
  match o.attribute? name with
  | some (.atom (.text s)) => some s
  | _ => none

/-- The truth value under a key. -/
def bool? (o : Object) (name : String) : Option Bool :=
  match o.attribute? name with
  | some (.atom (.bool b)) => some b
  | _ => none

/-- The text under a key, if there is one, or nothing at all. -/
def textOrNone? (o : Object) (name : String) : Option (Option String) :=
  match o.attribute? name with
  | some (.atom (.text s)) => some (some s)
  | some (.atom .none) => some none
  | _ => none

/-- What stands under a key that may be missing: a text, if anything. -/
def entry? (o : Object) (name : String) : Option (Option String) :=
  match o.attribute? name with
  | none => some none
  | some (.atom (.text s)) => some (some s)
  | some _ => none

/-- What stands under a key that may be missing: a truth value, if anything. -/
def flagEntry? (o : Object) (name : String) : Option (Option Bool) :=
  match o.attribute? name with
  | none => some none
  | some (.atom (.bool b)) => some (some b)
  | some _ => none

/-- The content of a node. -/
def content? (o : Object) : Option Content :=
  match o.kind with
  | .node .root => return .root (← o.textOrNone? "file")
  | .node .rule => return .rule (← o.text? "selector")
  | .node .atRule => return .atRule (← o.text? "name") (← o.text? "params") (← o.bool? "body")
  | .node .declaration =>
    return .declaration (← o.text? "prop") (← o.text? "value") (← o.bool? "important")
  | .node .comment => return .comment (← o.text? "text")
  | .dict | .list => none

/-- The addresses in a list. -/
def addresses? (o : Object) : Option (List Address) :=
  match o.kind with
  | .list => o.parts.mapM fun p => p.2.address?
  | _ => none

end Object

namespace Memory

variable (m : Memory)

/-- The object that an object holds under a key. -/
def heldBy? (o : Object) (name : String) : Option Object := do
  m.get? (← (← o.attribute? name).address?)

/-- A value as it was written, in a dict of raws. -/
def rawValue? (d : Object) : Option (Option RawValue) :=
  match d.attribute? "value" with
  | none => some none
  | some _ => do
    let e ← m.heldBy? d "value"
    return some ⟨← e.text? "value", ← e.text? "raw"⟩

/-- The raws in a dict. -/
def raws? (d : Object) : Option Raws :=
  match d.kind with
  | .dict => do
    return {
      before := ← d.entry? "before"
      after := ← d.entry? "after"
      between := ← d.entry? "between"
      semicolon := ← d.flagEntry? "semicolon"
      afterName := ← d.entry? "after_name"
      important := ← d.entry? "important"
      trailing := ← d.entry? "trailing"
      left := ← d.entry? "left"
      right := ← d.entry? "right"
      value := ← m.rawValue? d }
  | _ => none

/-- The children of a node. -/
def childrenOf? (o : Object) : Option (List Address) :=
  if o.kind.isContainer then do (← m.heldBy? o "nodes").addresses? else some []

/-- The tree below a node, if it is not deeper than given. -/
def treeAt (m : Memory) : Nat → Address → Option Tree
  | 0, _ => none
  | depth + 1, a => do
    let o ← m.get? a
    let content ← o.content?
    let raws ← m.raws? (← m.heldBy? o "raws")
    let children ← (← m.childrenOf? o).mapM (m.treeAt depth)
    return .node content raws children

/-- The tree below a node. Nodes do not lead further down than there are objects, unless they close
a cycle. -/
def tree? (m : Memory) (a : Address) : Option Tree :=
  m.treeAt (m.size + 1) a

/-- The text of a node. -/
def text? (m : Memory) (semicolon : Bool) (a : Address) : Option String :=
  (m.tree? a).map (·.text semicolon)

end Memory

end PixelUnit
