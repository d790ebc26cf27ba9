/-!
# Nodes

What a node of a stylesheet is, and how it was written: a node keeps the source text around its
parts, so that an unchanged sheet can be written back as it was.
-/

namespace PixelUnit.Sheet

/-- What a node says. -/
inductive Content where
  | root (file : Option String)
  | rule (selector : String)
  | atRule (name params : String) (body : Bool)
  | declaration (prop value : String) (important : Bool)
  | comment (text : String)
deriving DecidableEq

namespace Content

/-- Whether a node of this content has children. -/
def isContainer : Content → Bool
  | root _ | rule _ | atRule .. => true
  | declaration .. | comment _ => false

/-- Whether a node of this content is a comment. -/
def isComment : Content → Bool
  | comment _ => true
  | _ => false

/-- The name of a node's class, as messages give it. -/
def className : Content → String
  | root _ => "Root"
  | rule _ => "Rule"
  | atRule .. => "AtRule"
  | declaration .. => "Declaration"
  | comment _ => "Comment"

/-- The short name of a node's class. -/
def typeName : Content → String
  | root _ => "root"
  | rule _ => "rule"
  | atRule .. => "atrule"
  | declaration .. => "decl"
  | comment _ => "comment"

/-- What a node is called by: a property, a selector, a name, a text or a file. -/
def label? : Content → Option String
  | root file => file
  | rule selector => some selector
  | atRule name _ _ => some name
  | declaration prop _ _ => some prop
  | comment text => some text

end Content

/-- A value as it is understood and as it was written. -/
structure RawValue where
  value : String
  raw : String
deriving DecidableEq

/-- The source text around the parts of a node, as far as it is known. -/
structure Raws where
  /-- Between the node before, or the opening of the parent, and the node. -/
  before : Option String := none
  /-- Between the last child and the end of the node. -/
  after : Option String := none
  /-- Between a property and its value, the colon included, or before an opening brace. -/
  between : Option String := none
  /-- Whether a semicolon follows the last child. -/
  semicolon : Option Bool := none
  /-- Between the name of an at-rule and its parameters. -/
  afterName : Option String := none
  /-- The mark of importance, with the white space before it. -/
  important : Option String := none
  /-- Behind a value and its mark of importance. -/
  trailing : Option String := none
  /-- Before the text of a comment. -/
  left : Option String := none
  /-- Behind the text of a comment. -/
  right : Option String := none
  /-- The value as it was written, if it was not written as it is understood. -/
  value : Option RawValue := none
deriving DecidableEq

end PixelUnit.Sheet
