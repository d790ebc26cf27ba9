import PixelUnit.Sheet.Node
import PixelUnit.Text.Quoted

/-!
# Trees

A stylesheet as a tree of nodes. `Tree.text` writes a tree back as a stylesheet, `Tree.describe`
shows it in a message.
-/

namespace PixelUnit.Sheet

/-- A node and its children. Comments and declarations have none. -/
inductive Tree where
  | node (content : Content) (raws : Raws) (children : List Tree)

namespace Tree

/-- What the node at the top says. -/
def content : Tree → Content
  | node c _ _ => c

/-- How the node at the top was written. -/
def raws : Tree → Raws
  | node _ r _ => r

/-- The children of the node at the top. -/
def children : Tree → List Tree
  | node _ _ ts => ts

/-- Whether the node at the top is a comment. -/
def isComment (t : Tree) : Bool :=
  t.content.isComment

/-! ## Writing -/

/-- A declaration: its value as it was written, unless the value has changed since. -/
def declarationText (raws : Raws) (prop value : String) (important semicolon : Bool) : String :=
  let written := match raws.value with
    | some r => if r.value == value then r.raw else value
    | none => value
  raws.before.getD "" ++ prop ++ raws.between.getD ": " ++ written ++
    (if important then raws.important.getD " !important" else "") ++ raws.trailing.getD "" ++
    (if semicolon then ";" else "")

/-- A comment. -/
def commentText (raws : Raws) (text : String) : String :=
  raws.before.getD "" ++ "/*" ++ raws.left.getD " " ++ text ++ raws.right.getD " " ++ "*/"

/-- A block with braces around its inner text. -/
def blockText (raws : Raws) (inner : String) : String :=
  raws.between.getD " " ++ "\x7b" ++ inner ++ raws.after.getD "" ++ "\x7d"

/-- An at-rule up to its parameters. -/
def atRuleHead (raws : Raws) (name params : String) : String :=
  raws.before.getD "" ++ "@" ++ name ++
    raws.afterName.getD (if params == "" then "" else " ") ++ params

mutual

/-- A tree as a stylesheet; a node that can end in a semicolon does so if it is asked to. -/
def text (semicolon : Bool) : Tree → String
  | node content raws children =>
    let inner := texts (raws.semicolon == some true) children
    match content with
    | .root _ => inner ++ raws.after.getD ""
    | .rule selector => raws.before.getD "" ++ selector ++ blockText raws inner
    | .atRule name params true => atRuleHead raws name params ++ blockText raws inner
    | .atRule name params false =>
      atRuleHead raws name params ++ raws.between.getD "" ++ (if semicolon then ";" else "")
    | .declaration prop value important => declarationText raws prop value important semicolon
    | .comment text => commentText raws text

/-- Siblings as a stylesheet: all that can end in a semicolon do so, the last of them only if it is
asked to. -/
def texts (semicolon : Bool) : List Tree → String
  | [] => ""
  | t :: ts => text (semicolon || ts.any (!·.isComment)) t ++ texts semicolon ts

end

/-! ## Showing -/

/-- A file name, or its absence, as it is shown. -/
def describeFile : Option String → String
  | some file => Text.quoted file
  | none => "None"

mutual

/-- A tree as it is shown. -/
def describe : Tree → String
  | node content _ children =>
    match content with
    | .root file =>
      "Root(" ++ describeFile file ++ ",\n  " ++ "\n  ".intercalate (describeAll children) ++ "\n)"
    | .rule selector =>
      "Rule(" ++ Text.quoted selector ++ ", [" ++ ", ".intercalate (describeAll children) ++ "])"
    | .atRule name params body =>
      "AtRule(" ++ Text.quoted name ++ ", params=" ++ Text.quoted params ++ ", block=" ++
        (if body then "\x7b...\x7d" else "None") ++ ")"
    | .declaration prop value important =>
      "Decl(" ++ (if important then "!, " else "") ++ Text.quoted prop ++ ", " ++
        Text.quoted value ++ ")"
    | .comment text => "Comment(" ++ Text.quoted text ++ ")"

/-- Trees as they are shown. -/
def describeAll : List Tree → List String
  | [] => []
  | t :: ts => describe t :: describeAll ts

end

end Tree

end PixelUnit.Sheet
