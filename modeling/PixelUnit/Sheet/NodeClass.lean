import PixelUnit.Sheet.Node

/-!
# Classes of nodes

What nodes have by their class: whether they have children, and the names of the attributes that
they all have, besides those that each node has of its own.
-/

namespace PixelUnit.Sheet

/-- The classes of nodes. -/
inductive NodeClass where
  | root
  | rule
  | atRule
  | declaration
  | comment
deriving DecidableEq

namespace NodeClass

/-- Whether nodes of a class have children. -/
def isContainer : NodeClass → Bool
  | root | rule | atRule => true
  | declaration | comment => false

/-- The name of a class, as messages give it. -/
def name : NodeClass → String
  | root => "Root"
  | rule => "Rule"
  | atRule => "AtRule"
  | declaration => "Declaration"
  | comment => "Comment"

/-- The names of the attributes that nodes have by their class: what all objects have, and what all
nodes have. -/
def commonNames : List String :=
  ["__annotations__", "__class__", "__delattr__", "__dict__", "__dir__", "__doc__", "__eq__",
    "__format__", "__ge__", "__getattribute__", "__getstate__", "__gt__", "__hash__", "__init__",
    "__init_subclass__", "__le__", "__lt__", "__module__", "__ne__", "__new__", "__reduce__",
    "__reduce_ex__", "__repr__", "__setattr__", "__sizeof__", "__str__", "__subclasshook__",
    "__weakref__", "clone", "next", "prev", "remove", "root", "to_string", "type"]

/-- The names of the attributes that containers have besides. -/
def containerNames : List String :=
  ["__deepcopy__", "__getitem__", "__iter__", "__len__", "_adopt_", "_children_", "append", "each",
    "first", "index", "insert_after", "insert_before", "last", "remove_child", "walk", "walk_decls"]

/-- The name of the attribute that other nodes have besides, once one of their class was copied. -/
def leafNames : List String :=
  ["__slotnames__"]

/-- The names of all attributes that nodes of some class have by it. -/
def reservedNames : List String :=
  commonNames ++ containerNames ++ leafNames

/-- The names of the attributes that nodes of some class have of their own: what they say, how they
are written, and what they are linked to. -/
def fieldNames : List String :=
  ["prop", "value", "important", "selector", "name", "params", "body", "file", "text", "raws",
    "parent", "nodes", "_iterations_", "_last_id_"]

/-- The names of the attributes that nodes of a class have by it. -/
def names (c : NodeClass) : List String :=
  if c.isContainer then commonNames ++ containerNames else commonNames ++ leafNames

/-- The names of the attributes that containers compute from the list of their children. -/
def computedNames (c : NodeClass) : List String :=
  if c.isContainer then ["first", "last"] else []

/-- The names of the attributes that cannot be set. -/
def readOnlyNames (c : NodeClass) : List String :=
  "__weakref__" :: c.computedNames

end NodeClass

/-- The class of nodes of a content. -/
def Content.nodeClass : Content → NodeClass
  | .root _ => .root
  | .rule _ => .rule
  | .atRule .. => .atRule
  | .declaration .. => .declaration
  | .comment _ => .comment

end PixelUnit.Sheet
