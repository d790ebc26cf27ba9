import PixelUnit.Log
import PixelUnit.Sheet.Declaration
import PixelUnit.Sheet.Scanner
import PixelUnit.Sheet.Tree

/-!
# Reading stylesheets

A stylesheet is read statement by statement: a statement that ends in an opening brace starts a
rule, any other is a declaration, or an at-rule if it starts with an at-keyword. What is open is
kept as a stack of frames. A semicolon that ends nothing counts as white space before the next
node: a token of white space that repeats the text since the last node takes its place behind it.
-/

namespace PixelUnit.Sheet

/-! ## The tokens of a statement -/

/-- The tokens of a statement, the brace or semicolon that ends it, and what is left. -/
structure Prelude where
  tokens : List Token
  stop : Option Token
  rest : List Token
  /-- Whether a bracket was still open at the end of the source. -/
  unclosed : Bool

namespace Prelude

/-- A prelude with one more token in front. -/
def cons (t : Token) (p : Prelude) : Prelude :=
  { p with tokens := t :: p.tokens }

/-- The statement at the front of some tokens. Inside brackets, whose closing halves are expected
as `awaited`, nothing ends a statement but the end of the source; a closing brace is left where it
is. -/
def read (awaited : List Token.Kind) : List Token → Prelude
  | [] => ⟨[], none, [], !awaited.isEmpty⟩
  | t :: r =>
    if t.kind == .ending then ⟨[], none, t :: r, !awaited.isEmpty⟩
    else if awaited.head? == some t.kind then (read awaited.tail r).cons t
    else if t.kind == .openSquare then (read (.closeSquare :: awaited) r).cons t
    else if t.kind == .openParen then (read (.closeParen :: awaited) r).cons t
    else if awaited.isEmpty && (t.kind == .openBrace || t.kind == .semicolon) then
      ⟨[], some t, r, false⟩
    else if awaited.isEmpty && t.kind == .closeBrace then ⟨[], none, t :: r, false⟩
    else (read awaited r).cons t

/-- The fault of a bracket that is not closed. -/
def fault? (p : Prelude) : Option Fault :=
  if p.unclosed then p.tokens.head?.map fun t => ⟨.unclosedBracket, t.pos⟩ else none

/-- Whether the statement ends in an opening brace. -/
def opensBlock (p : Prelude) : Bool :=
  p.stop.any (·.kind == .openBrace)

/-- Whether the statement ends in a semicolon. -/
def endsInSemicolon (p : Prelude) : Bool :=
  p.stop.any (·.kind == .semicolon)

/-- All tokens that belong to the statement. -/
def taken (p : Prelude) : List Token :=
  p.tokens ++ p.stop.toList

theorem taken_append_rest (awaited : List Token.Kind) (ts : List Token) :
    (read awaited ts).taken ++ (read awaited ts).rest = ts := by
  fun_induction read awaited ts <;> simp_all [taken, cons]

/-- The tokens taken and those left are as many as there were. -/
theorem length_taken_add_length_rest (awaited : List Token.Kind) (ts : List Token) :
    (read awaited ts).taken.length + (read awaited ts).rest.length = ts.length := by
  rw [← List.length_append, taken_append_rest]

/-- What is left behind white space and a statement is no longer than what there was. -/
theorem length_rest_le (p : Token → Bool) (ts : List Token) :
    (read [] (ts.dropWhile p)).rest.length ≤ ts.length := by
  have h := length_taken_add_length_rest [] (ts.dropWhile p)
  have hd := (List.dropWhile_sublist p (l := ts)).length_le
  omega

end Prelude

/-! ## Open containers -/

/-- A container that is being read; its children so far, last one first. -/
structure Frame where
  content : Content
  raws : Raws
  children : List Tree

namespace Frame

/-- The container with one more child. -/
def add (f : Frame) (t : Tree) : Frame :=
  { f with children := t :: f.children }

/-- The finished container, with the text before its end. -/
def close (f : Frame) (after : String) : Tree :=
  .node f.content { f.raws with after := some after } f.children.reverse

/-- Notes whether the last child ends in a semicolon. -/
def setSemicolon (f : Frame) (b : Bool) : Frame :=
  { f with raws := { f.raws with semicolon := some b } }

end Frame

/-- How far a reading has come. -/
structure Builder where
  /-- The tokens read, last one first, with those put in for lone semicolons. -/
  seen : List Token
  /-- The text since the last node. -/
  pending : String
  /-- The innermost open container. -/
  frame : Frame
  /-- The containers around it. -/
  outer : List Frame
  /-- The faults noted. -/
  faults : List Fault

/-- What a reading ends with: a tree or the fault that ended it, the faults noted, the tokens as
they were in the end, and how many of them were read. -/
structure Reading where
  result : Except Fault Tree
  faults : List Fault
  tokens : List Token
  index : Nat

namespace Builder

/-- The start of a reading. -/
def start (file : Option String) : Builder :=
  ⟨[], "", ⟨.root file, {}, []⟩, [], []⟩

/-- Passes white space. -/
def skip (b : Builder) (t : Token) : Builder :=
  { b with seen := t :: b.seen, pending := b.pending ++ t.raw }

/-- Passes a semicolon that ends nothing. -/
def skipSemicolon (b : Builder) (t : Token) : Builder :=
  let text := b.pending ++ t.raw
  { b with seen := ⟨.spacing, text, t.pos⟩ :: t :: b.seen, pending := text }

/-- Notes what is wrong with a statement. -/
def note (b : Builder) (fault : Option Fault) : Builder :=
  { b with faults := b.faults ++ fault.toList }

/-- Passes the tokens of a node or of its head. -/
def pass (b : Builder) (tokens : List Token) : Builder :=
  { b with seen := tokens.reverse ++ b.seen, pending := "" }

/-- Adds a finished node that was made of some tokens. -/
def add (b : Builder) (tokens : List Token) (t : Tree) : Builder :=
  { b.pass tokens with frame := b.frame.add t }

/-- Opens a container whose head was made of some tokens. -/
def openBlock (b : Builder) (tokens : List Token) (content : Content) (raws : Raws) : Builder :=
  { b.pass tokens with frame := ⟨content, raws, []⟩, outer := b.frame :: b.outer }

/-- Adds a comment. -/
def addComment (b : Builder) (t : Token) : Builder :=
  let inner := t.inner
  let text := t.text
  let (left, right) :=
    if text.isEmpty then (inner, []) else (Text.leadingBlanks inner, Text.trailingBlanks inner)
  b.add [t] <| .node (.comment (String.ofList text))
    { before := some b.pending
      left := some (String.ofList left)
      right := some (String.ofList right) } []

/-- Adds or opens an at-rule: its keyword, the white space behind it and the rest of its
statement. -/
def addAtRule (b : Builder) (keyword : Token) (gap : List Token) (p : Prelude) : Builder :=
  let b := b.note p.fault?
  let (params, between) := splitTrailing p.tokens
  let tokens := keyword :: gap ++ p.taken
  let raws : Raws :=
    { before := some b.pending
      afterName := some (rawText gap)
      between := some (rawText between) }
  if p.opensBlock then
    b.openBlock tokens (.atRule keyword.keyword (rawText params) true) raws
  else
    let b := { b with frame := b.frame.setSemicolon p.endsInSemicolon }
    b.add tokens (.node (.atRule keyword.keyword (rawText params) false) raws [])

/-- Adds a declaration or opens a rule; a statement that is neither ends the reading. -/
def addStatement (b : Builder) (p : Prelude) : Option Builder :=
  if p.opensBlock then
    let (selector, between) := splitTrailing p.tokens
    some <| b.openBlock p.taken (.rule (rawText selector))
      { before := some b.pending, between := some (rawText between) }
  else
    (declarationOf b.pending p.tokens).map fun (content, raws) =>
      { b with frame := b.frame.setSemicolon p.endsInSemicolon }.add p.taken
        (.node content raws [])

/-- Closes the innermost container at its brace, if it has one around it. -/
def closeBlock (b : Builder) (brace : Token) : Option Builder :=
  match b.outer with
  | [] => none
  | f :: fs =>
    some { b.pass [brace] with frame := f.add (b.frame.close b.pending), outer := fs }

/-- Closes what is open from the inside out. -/
def closeAll (f : Frame) (after : String) : List Frame → Tree
  | [] => f.close after
  | g :: gs => closeAll (g.add (f.close after)) "" gs

/-- The end of a reading at the end of the source, which is given a place. -/
def finish (b : Builder) (pos : Position) (rest : List Token) : Reading where
  result := .ok (closeAll b.frame b.pending b.outer)
  faults := b.faults ++ b.outer.map fun _ => ⟨.unclosedBlock, pos⟩
  tokens := b.seen.reverse ++ rest
  index := b.seen.length

/-- The end of a reading at a fault. -/
def fail (b : Builder) (fault : Fault) (rest : List Token) : Reading where
  result := .error fault
  faults := b.faults
  tokens := b.seen.reverse ++ rest
  index := b.seen.length

/-- A statement that gives a node, or opens a container, has tokens. -/
theorem taken_ne_nil {b b' : Builder} {p : Prelude} (h : b.addStatement p = some b') :
    p.taken ≠ [] := by
  intro hnil
  obtain ⟨htokens, hstop⟩ := List.append_eq_nil_iff.1 hnil
  have hstop : p.stop = none := by simpa using hstop
  simp [addStatement, Prelude.opensBlock, hstop, htokens, declarationOf_nil] at h

/-- What is left behind a statement is shorter than what there was. -/
theorem length_rest_lt {b b' : Builder} {ts : List Token}
    (h : b.addStatement (Prelude.read [] ts) = some b') :
    (Prelude.read [] ts).rest.length < ts.length := by
  have hlen := Prelude.length_taken_add_length_rest [] ts
  have hpos := List.length_pos_iff.2 (taken_ne_nil h)
  omega

/-- Reads tokens to their end. -/
def run (b : Builder) : List Token → Reading
  | [] => b.finish .nowhere []
  | t :: r =>
    match t.kind with
    | .ending => b.finish t.pos (t :: r)
    | .spacing => (b.skip t).run r
    | .semicolon => (b.skipSemicolon t).run r
    | .closeBrace =>
      match b.closeBlock t with
      | some b' => b'.run r
      | none => b.fail ⟨.unexpectedClose, t.pos⟩ (t :: r)
    | .comment => (b.addComment t).run r
    | .atKeyword =>
      let p := Prelude.read [] (r.dropWhile Token.isSpacing)
      (b.addAtRule t (r.takeWhile Token.isSpacing) p).run p.rest
    | _ =>
      let p := Prelude.read [] (t :: r)
      match _h : (b.note p.fault?).addStatement p with
      | some b' => b'.run p.rest
      | none => ((b.note p.fault?).pass p.taken).fail ⟨.unknownWord, t.pos⟩ p.rest
termination_by ts => ts.length
decreasing_by
  · exact Nat.lt_succ_self _
  · exact Nat.lt_succ_self _
  · exact Nat.lt_succ_self _
  · exact Nat.lt_succ_self _
  · exact Nat.lt_succ_of_le (Prelude.length_rest_le _ _)
  · exact length_rest_lt _h

end Builder

namespace Reading

/-- The reading of ready-made tokens; `file` is the name that the sheet goes by. -/
def ofTokens (tokens : List Token) (file : Option String) : Reading :=
  (Builder.start file).run tokens

/-- The records that a reading leaves: one per fault noted. -/
def log (r : Reading) (file : Option String) : Log :=
  let label := match file with
    | some f => if f == "" then "" else f ++ ": "
    | none => ""
  r.faults.map fun f => ⟨.warning, .reader, label ++ f.message⟩

end Reading

/-- A source that has been scanned and, if that did not fail, read. -/
structure SourceReading where
  scan : Scanner.Scan
  file : Option String
  reading : Except Fault Reading

namespace SourceReading

/-- The reading of a source; `file` is the name that the sheet goes by. -/
def ofSource (source : String) (file : Option String) : SourceReading :=
  let scan := scanSource source
  ⟨scan, file, match scan.failure with
    | some fault => .error fault
    | none => .ok (.ofTokens scan.tokens file)⟩

/-- The tree that was read, or the fault that ended the scanning or the reading. -/
def tree (s : SourceReading) : Except Fault Tree :=
  s.reading.bind Reading.result

/-- All faults noted, those of the scanning first. -/
def faults (s : SourceReading) : List Fault :=
  s.scan.final.faults ++ match s.reading with
    | .ok r => r.faults
    | .error _ => []

/-- The records of scanning and reading. -/
def log (s : SourceReading) : Log :=
  s.scan.final.log ++ match s.reading with
    | .ok r => r.log s.file
    | .error _ => []

end SourceReading

end PixelUnit.Sheet
