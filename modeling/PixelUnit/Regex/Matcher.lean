import PixelUnit.Regex.Pattern

/-!
# Matching

A pattern is matched at a place in a text by trying, in order, the ways in which it can go on:
`Pattern.run p s k` is the first way of matching `p` at `s` after which `k` succeeds. Recursion is
on the pattern; a repetition counts down, from a number that no run can use up, since every
repetition beyond the required ones must have made progress. Where what is repeated can match
nothing, a round that made no progress is the last one.
-/

namespace PixelUnit.Regex

/-- A part of a text, given by the text behind its start and the text behind its end. -/
structure Span where
  start : List Char
  stop : List Char

/-- The text of a part. -/
def Span.text (p : Span) : List Char :=
  p.start.take (p.start.length - p.stop.length)

/-- A place in a text, and what the groups have matched so far. -/
structure Place where
  /-- The text before the place, last character first. -/
  before : List Char
  /-- The text behind the place. -/
  after : List Char
  /-- What the groups have matched, latest first. -/
  groups : List (Nat × Span)

namespace Place

/-- The start of a text. -/
def start (text : List Char) : Place := ⟨[], text, []⟩

/-- What a group has matched. -/
def group? (s : Place) (i : Nat) : Option (List Char) :=
  (s.groups.lookup i).map Span.text

/-- The place `n` characters back, if there are so many. -/
def back : Nat → Place → Option Place
  | 0, s => some s
  | n + 1, s =>
    match s.before with
    | [] => none
    | c :: b => back n { s with before := b, after := c :: s.after }

/-- The part of a text between a place and a later one. -/
def upTo (s t : Place) : Span :=
  ⟨s.after, t.after⟩

end Place

/-- What goes on after a match. -/
abbrev Continuation := Place → Option Place

/-- A way of matching something at a place and going on. -/
abbrev Matcher := Place → Continuation → Option Place

namespace Matcher

/-- One character that satisfies `p`. -/
def one (p : Char → Bool) : Matcher := fun s k =>
  match s.after with
  | c :: r => if p c then k { s with before := c :: s.before, after := r } else none
  | [] => none

/-- The characters of `cs`, one after the other, as far as `agree` tells them apart. -/
def literal (agree : Char → Char → Bool) : List Char → Matcher
  | [] => fun s k => k s
  | c :: cs => fun s k => one (agree c) s fun s' => literal agree cs s' k

/-- What tells whether a round that began at a place has made progress; nothing if it must have. -/
def stamp (canStall : Bool) (s : Place) : Option Nat :=
  if canStall then some s.after.length else none

/-- Whether a round may begin at a place, given the stamp of the round before. -/
def mayGoOn (canStall : Bool) (last : Option Nat) (s : Place) : Bool :=
  !canStall || last != stamp canStall s

/-- Repetition that tries another round before it goes on. `canStall` says whether a round can match
nothing; the second number counts the rounds, and the stamp is that of the latest round beyond the
required ones. -/
def greedy (body : Matcher) (least : Nat) (most : Option Nat) (canStall : Bool) (k : Continuation) :
    Nat → Nat → Option Nat → Place → Option Place
  | 0, _, _, _ => none
  | fuel + 1, count, last, s =>
    if count < least then body s (greedy body least most canStall k fuel (count + 1) last)
    else if most.all (count < ·) && mayGoOn canStall last s then
      (body s (greedy body least most canStall k fuel (count + 1) (stamp canStall s))).or (k s)
    else k s

/-- Repetition that goes on before it tries another round. -/
def lazy (body : Matcher) (least : Nat) (most : Option Nat) (canStall : Bool) (k : Continuation) :
    Nat → Nat → Option Nat → Place → Option Place
  | 0, _, _, _ => none
  | fuel + 1, count, last, s =>
    if count < least then body s (lazy body least most canStall k fuel (count + 1) last)
    else (k s).or <|
      if most.all (count < ·) && mayGoOn canStall last s then
        body s (lazy body least most canStall k fuel (count + 1) (stamp canStall s))
      else none

/-- Repetition in which every round is kept as it is first matched. -/
def possessive (body : Matcher) (least : Nat) (most : Option Nat) :
    Nat → Nat → Place → Option Place
  | 0, _, _ => none
  | fuel + 1, count, s =>
    if count < least then (body s some).bind (possessive body least most fuel (count + 1))
    else if most.all (count < ·) then
      match body s some with
      | some s' =>
        if s'.after.length < s.after.length then possessive body least most fuel (count + 1) s'
        else some s'
      | none => some s
    else some s

end Matcher

/-- Whether an edge lies at a place. -/
def Edge.holds (s : Place) : Edge → Bool
  | .textStart => s.before.isEmpty
  | .lineStart => s.before.isEmpty || s.before.head? == some '\n'
  | .textEnd => s.after.isEmpty
  | .lastLineEnd => s.after.isEmpty || s.after == ['\n']
  | .lineEnd => s.after.isEmpty || s.after.head? == some '\n'
  | .wordEdge ascii =>
    s.before.head?.any (Category.contains .wordChar ascii) !=
      s.after.head?.any (Category.contains .wordChar ascii)
  | .noWordEdge ascii =>
    !(s.before.isEmpty && s.after.isEmpty) &&
      s.before.head?.any (Category.contains .wordChar ascii) ==
        s.after.head?.any (Category.contains .wordChar ascii)

/-- The first way of matching a pattern at a place after which `k` succeeds. -/
def Pattern.run : Pattern → Matcher
  | .empty => fun s k => k s
  | .char c rule => .one (rule.agree c)
  | .set items negated rule => .one fun c => items.any (·.contains rule c) != negated
  | .any dotAll => .one fun c => dotAll || c != '\n'
  | .edge e => fun s k => if e.holds s then k s else none
  | .seq p q => fun s k => p.run s fun s' => q.run s' k
  | .alt p q => fun s k => (p.run s k).or (q.run s k)
  | .rep least most greed p => fun s k =>
    let rounds := least + s.after.length + 2
    let canStall := (p.width fun _ => .exactly 0).least == 0
    match greed with
    | .greedy => Matcher.greedy p.run least most canStall k rounds 0 none s
    | .lazy => Matcher.lazy p.run least most canStall k rounds 0 none s
    | .possessive => (Matcher.possessive p.run least most rounds 0 s).bind k
  | .group i p => fun s k =>
    p.run s fun t => k { t with groups := (i, s.upTo t) :: t.groups }
  | .same i rule => fun s k =>
    match s.group? i with
    | some cs => Matcher.literal (fun a b => rule.fold a == rule.fold b) cs s k
    | none => none
  | .atomic p => fun s k => (p.run s some).bind k
  | .ahead negated p => fun s k =>
    match p.run s some with
    | some t => if negated then none else k { s with groups := t.groups }
    | none => if negated then k s else none
  | .behind width negated p => fun s k =>
    match (s.back width).bind fun b => p.run b some with
    | some t => if negated then none else k { s with groups := t.groups }
    | none => if negated then k s else none
  | .given i p q => fun s k => if (s.group? i).isSome then p.run s k else q.run s k

/-- A match: where it starts and where it ends. -/
structure Match where
  first : Place
  last : Place

namespace Match

/-- The text of a match. -/
def text (m : Match) : List Char :=
  (m.first.upTo m.last).text

/-- What a group took part in the match with. -/
def group? (m : Match) (i : Nat) : Option (List Char) :=
  m.last.group? i

end Match

/-- The match of a pattern at one place. -/
def Pattern.matchAt (p : Pattern) (s : Place) : Option Match :=
  (p.run s some).map (⟨s, ·⟩)

/-- The first match of a pattern in the text behind a place; `before` is the text passed. -/
def Pattern.searchFrom (p : Pattern) : List Char → List Char → Option Match
  | before, [] => p.matchAt ⟨before, [], []⟩
  | before, c :: r => (p.matchAt ⟨before, c :: r, []⟩).or (p.searchFrom (c :: before) r)

/-- The first match of a pattern in a text. -/
def Pattern.search (p : Pattern) (text : List Char) : Option Match :=
  p.searchFrom [] text

/-- A text in which every match that takes up some text is replaced; matches are found from left
to right and do not overlap. -/
def Pattern.replaceFrom (p : Pattern) (f : Match → List Char) (before : List Char) :
    List Char → List Char
  | [] => []
  | c :: r =>
    match p.matchAt ⟨before, c :: r, []⟩ with
    | some m =>
      if m.last.after.length < r.length + 1 then
        f m ++ p.replaceFrom f m.last.before m.last.after
      else c :: p.replaceFrom f (c :: before) r
    | none => c :: p.replaceFrom f (c :: before) r
termination_by text => text.length

/-- A text in which every match is replaced by what `f` makes of it. -/
def Pattern.replace (p : Pattern) (f : Match → List Char) (text : List Char) : List Char :=
  p.replaceFrom f [] text

end PixelUnit.Regex
