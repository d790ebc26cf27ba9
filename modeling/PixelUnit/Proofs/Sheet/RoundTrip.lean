import PixelUnit.Proofs.Sheet.Steps

/-!
# Reading and writing back

A sheet that is read without loss is written back as it was (`Reading.text_eq_source`). The
invariant is that the text of what has been read so far, open containers included, followed by the
tokens still to be read, is the source (`Builder.Writes`). It is kept by every step of a reading.

The semicolon behind a child is not kept with the child: all children but the last one that is no
comment get one, and the last one gets one if its container says so. A container is *settled* when
a further child would not change what is written for those it has. Only a statement that ends
without a semicolon unsettles its container, and the container ends right behind it.
-/

namespace PixelUnit.Sheet

/-! ## Texts of siblings -/

namespace Tree

/-- Siblings before a last one that is no comment all get a semicolon. -/
theorem texts_concat (semicolon : Bool) (t : Tree) :
    ∀ ts : List Tree, texts semicolon (ts ++ [t]) =
      texts (semicolon || !t.isComment) ts ++ text semicolon t
  | [] => by simp [texts]
  | u :: ts => by
    have hany : (semicolon || (ts ++ [t]).any (!·.isComment)) =
        (semicolon || !t.isComment || ts.any (!·.isComment)) := by
      rw [List.any_append, List.any_cons, List.any_nil, Bool.or_false]
      cases semicolon <;> cases ts.any (!·.isComment) <;> simp
    rw [List.cons_append, texts, texts, texts_concat semicolon t ts, hany, String.append_assoc]

/-- Whether a semicolon is asked for makes no difference to a tree. -/
def EndsItself (t : Tree) : Prop :=
  ∀ semicolon, t.text semicolon = t.text true

theorem endsItself_commentNode (before : String) (t : Token) :
    (commentNode before t).EndsItself := by
  intro semicolon
  rw [commentNode, text, text]

end Tree

/-! ## What is written for an open container -/

namespace Frame

/-- The text of a container before its children. -/
def head (f : Frame) : String :=
  match f.content with
  | .rule selector => f.raws.before.getD "" ++ selector ++ f.raws.between.getD " " ++ "\x7b"
  | .atRule name params _ => Tree.atRuleHead f.raws name params ++ f.raws.between.getD " " ++ "\x7b"
  | _ => ""

/-- The text of the children. -/
def inner (f : Frame) (semicolon : Bool) : String :=
  Tree.texts semicolon f.children.reverse

/-- Whether a semicolon follows the last child. -/
def endsInSemicolon (f : Frame) : Bool :=
  f.raws.semicolon == some true

/-- The text of a container without its end. -/
def written (f : Frame) : String :=
  f.head ++ f.inner f.endsInSemicolon

/-- A further child changes nothing in what is written for the children before it. -/
def Settled (f : Frame) : Prop :=
  f.inner f.endsInSemicolon = f.inner true

/-- The container is the sheet itself. -/
def IsRoot (f : Frame) : Prop :=
  ∃ file, f.content = .root file

/-- The container is written with braces. -/
def IsBlock (f : Frame) : Prop :=
  (∃ selector, f.content = .rule selector) ∨ ∃ name params, f.content = .atRule name params true

theorem inner_add (f : Frame) (t : Tree) (semicolon : Bool) :
    (f.add t).inner semicolon = f.inner (semicolon || !t.isComment) ++ t.text semicolon := by
  rw [inner, add, List.reverse_cons, Tree.texts_concat, inner]

@[simp] theorem endsInSemicolon_setSemicolon (f : Frame) (semicolon : Bool) :
    (f.setSemicolon semicolon).endsInSemicolon = semicolon := by
  cases semicolon <;> rfl

/-- What is written for the children of a settled container does not depend on what follows them. -/
theorem Settled.inner_or {f : Frame} (h : f.Settled) (more : Bool) :
    f.inner (f.endsInSemicolon || more) = f.inner true := by
  cases more with
  | true => rw [Bool.or_true]
  | false => rw [Bool.or_false, h]

/-- A child that ends itself is written behind the others. -/
theorem Settled.written_add {f : Frame} (h : f.Settled) {t : Tree} (ht : t.EndsItself) :
    (f.add t).written = f.written ++ t.text true :=
  calc (f.add t).written
      = f.head ++ (f.add t).inner f.endsInSemicolon := rfl
    _ = f.head ++ (f.inner true ++ t.text true) := by rw [inner_add, h.inner_or, ht]
    _ = f.written ++ t.text true := by rw [written, h, String.append_assoc]

/-- A settled container stays settled with a child that ends itself. -/
theorem Settled.add {f : Frame} (h : f.Settled) {t : Tree} (ht : t.EndsItself) :
    (f.add t).Settled :=
  calc (f.add t).inner f.endsInSemicolon
      = f.inner true ++ t.text true := by rw [inner_add, h.inner_or, ht]
    _ = (f.add t).inner true := by rw [inner_add, Bool.true_or]

/-- A statement that ends in a semicolon, or in none, is written behind the other children with
its end. -/
theorem Settled.written_addLine {f : Frame} (h : f.Settled) {t : Tree} (ht : t.isComment = false)
    (semicolon : Bool) :
    ((f.setSemicolon semicolon).add t).written = f.written ++ t.text semicolon :=
  calc ((f.setSemicolon semicolon).add t).written
      = f.head ++ ((f.setSemicolon semicolon).add t).inner
          (f.setSemicolon semicolon).endsInSemicolon := rfl
    _ = f.head ++ (f.inner true ++ t.text semicolon) := by
        rw [endsInSemicolon_setSemicolon, inner_add, ht, Bool.not_false, Bool.or_true]
        rfl
    _ = f.written ++ t.text semicolon := by rw [written, h, String.append_assoc]

theorem settled_addLine_true (f : Frame) (t : Tree) :
    ((f.setSemicolon true).add t).Settled := by
  show ((f.setSemicolon true).add t).inner (f.setSemicolon true).endsInSemicolon = _
  rw [endsInSemicolon_setSemicolon]

/-- A block is written with what is in it, the white space behind that and its brace. -/
theorem IsBlock.text_close {f : Frame} (h : f.IsBlock) (after : String) (semicolon : Bool) :
    (f.close after).text semicolon = f.written ++ after ++ "\x7d" := by
  rcases h with ⟨selector, h⟩ | ⟨name, params, h⟩ <;>
    simp [close, h, Tree.text, Tree.blockText, written, head, inner, endsInSemicolon,
      String.append_assoc, Tree.atRuleHead]

theorem IsBlock.endsItself_close {f : Frame} (h : f.IsBlock) (after : String) :
    (f.close after).EndsItself := by
  intro semicolon
  rw [h.text_close, h.text_close]

theorem IsRoot.text_close {f : Frame} (h : f.IsRoot) (after : String) (semicolon : Bool) :
    (f.close after).text semicolon = f.written ++ after := by
  obtain ⟨file, h⟩ := h
  simp [close, h, Tree.text, written, head, inner, endsInSemicolon]

end Frame

/-! ## Stacks of open containers -/

/-- The text of the containers around the innermost one. -/
def outerText : List Frame → String
  | [] => ""
  | g :: gs => outerText gs ++ g.written

/-- The outermost container is the sheet; all others are blocks, in containers that are settled. -/
def Stacked : Frame → List Frame → Prop
  | f, [] => f.IsRoot
  | f, g :: gs => f.IsBlock ∧ g.Settled ∧ Stacked g gs

/-- Only the content of the innermost container counts. -/
theorem Stacked.of_content_eq {f f' : Frame} {gs : List Frame} (h : Stacked f gs)
    (hf : f'.content = f.content) : Stacked f' gs := by
  cases gs with
  | nil =>
    obtain ⟨file, h⟩ := h
    exact ⟨file, hf.trans h⟩
  | cons g gs =>
    obtain ⟨hblock, hrest⟩ := h
    refine ⟨?_, hrest⟩
    rwa [Frame.IsBlock, hf]

/-- As many closing braces as there are blocks. -/
def closers (n : Nat) : String :=
  String.join (List.replicate n "\x7d")

/-- Closing all containers writes their texts, the text before the end, and a brace for each
block. -/
theorem Builder.text_closeAll :
    ∀ (gs : List Frame) (f : Frame) (after : String), Stacked f gs →
      (Builder.closeAll f after gs).text false =
        outerText gs ++ f.written ++ after ++ closers gs.length
  | [], f, after, h => by
    rw [Builder.closeAll, h.text_close, outerText, String.empty_append]
    exact String.append_empty.symm
  | g :: gs, f, after, ⟨hblock, hsettled, hrest⟩ => by
    have hclosers : closers (gs.length + 1) = "\x7d" ++ closers gs.length := by
      rw [closers, List.replicate_succ, String.join_cons, closers]
    have hrest' : Stacked (g.add (f.close after)) gs := hrest.of_content_eq rfl
    rw [Builder.closeAll, text_closeAll gs _ _ hrest',
      hsettled.written_add (hblock.endsItself_close after), hblock.text_close, outerText,
      List.length_cons, hclosers]
    simp only [String.append_assoc, String.empty_append]

/-! ## The end of a statement -/

/-- Nothing but a closing brace comes next, if anything comes. -/
def ClosesNext (ts : List Token) : Prop :=
  ∀ t, ts.head? = some t → t.kind = .closeBrace

theorem ClosesNext.of_head?_eq {ts us : List Token} (h : ClosesNext ts)
    (hus : us.head? = ts.head?) : ClosesNext us := fun t ht => h t (hus.symm.trans ht)

namespace Prelude

/-- A statement ends in an opening brace or a semicolon, or before a closing brace or the end. -/
theorem stop_cases (awaited : List Token.Kind) (ts : List Token) :
    (∃ u, (read awaited ts).stop = some u ∧ u.kind = .openBrace) ∨
      (∃ u, (read awaited ts).stop = some u ∧ u.kind = .semicolon) ∨
      ((read awaited ts).stop = none ∧
        ∀ t, (read awaited ts).rest.head? = some t → t.kind = .closeBrace ∨ t.kind = .ending) := by
  fun_induction read awaited ts with
  | case1 => exact Or.inr (Or.inr ⟨rfl, by simp⟩)
  | case2 awaited t r ht => exact Or.inr (Or.inr ⟨rfl, by simpa using Or.inr ht⟩)
  | case3 awaited t r _ _ ih => exact ih
  | case4 awaited t r _ _ _ ih => exact ih
  | case5 awaited t r _ _ _ _ ih => exact ih
  | case6 awaited t r _ _ _ _ ht =>
    simp only [Bool.and_eq_true, Bool.or_eq_true, beq_iff_eq] at ht
    rcases ht.2 with ht | ht
    · exact Or.inl ⟨t, rfl, ht⟩
    · exact Or.inr (Or.inl ⟨t, rfl, ht⟩)
  | case7 awaited t r _ _ _ _ _ ht =>
    simp only [Bool.and_eq_true, beq_iff_eq] at ht
    exact Or.inr (Or.inr ⟨rfl, by simpa using Or.inl ht.2⟩)
  | case8 awaited t r _ _ _ _ _ _ ih => exact ih

/-- Nothing but a bracket can be wrong with the tokens of a statement. -/
theorem cause_of_fault? {p : Prelude} {f : Fault} (h : p.fault? = some f) :
    f.cause = .unclosedBracket := by
  rw [fault?] at h
  split at h
  · obtain ⟨t, -, rfl⟩ := Option.map_eq_some_iff.1 h
    rfl
  · cases h

/-- A statement that opens a block ends in an opening brace. -/
theorem exists_stop_of_opensBlock {awaited : List Token.Kind} {ts : List Token}
    (h : (read awaited ts).opensBlock = true) :
    ∃ u, (read awaited ts).stop = some u ∧ u.kind = .openBrace := by
  obtain ⟨u, hu, hkind⟩ := (Option.any_eq_true _ _).1 h
  exact ⟨u, hu, by simpa using hkind⟩

/-- Any other statement ends in a semicolon, or right before the end of its container. -/
theorem endsInSemicolon_or_closesNext {awaited : List Token.Kind} {ts : List Token}
    (h : (read awaited ts).opensBlock = false) (hts : ∀ t ∈ ts, t.kind ≠ .ending) :
    (∃ u, (read awaited ts).stop = some u ∧ u.kind = .semicolon ∧
        (read awaited ts).endsInSemicolon = true) ∨
      ((read awaited ts).stop = none ∧ (read awaited ts).endsInSemicolon = false ∧
        ClosesNext (read awaited ts).rest) := by
  rcases stop_cases awaited ts with ⟨u, hu, hkind⟩ | ⟨u, hu, hkind⟩ | ⟨hu, hrest⟩
  · rw [opensBlock, hu, Option.any_some, hkind] at h
    exact absurd h (by decide)
  · exact Or.inl ⟨u, hu, hkind, by rw [endsInSemicolon, hu, Option.any_some, hkind]; rfl⟩
  · refine Or.inr ⟨hu, by rw [endsInSemicolon, hu, Option.any_none], fun t ht => ?_⟩
    refine (hrest t ht).resolve_right (hts t ?_)
    rw [← taken_append_rest awaited ts]
    exact List.mem_append_right _ (List.mem_of_mem_head? ht)

end Prelude

/-! ## The invariant -/

/-- Tokens have the marks of their classes. -/
structure Marked (ts : List Token) : Prop where
  marks : ∀ t ∈ ts, t.kind.Marks t.raw.toList

namespace Marked

variable {ts us : List Token}

theorem mono (h : Marked us) (hsub : ts ⊆ us) : Marked ts :=
  ⟨fun t ht => h.marks t (hsub ht)⟩

theorem raw_eq (h : Marked ts) {t : Token} (ht : t ∈ ts) :
    (t.kind = .openBrace → t.raw = "\x7b") ∧ (t.kind = .closeBrace → t.raw = "\x7d") ∧
      (t.kind = .semicolon → t.raw = ";") := by
  have hmarks := h.marks t ht
  refine ⟨?_, ?_, ?_⟩ <;> intro hkind <;> rw [hkind] at hmarks <;> rw [← String.toList_inj] <;>
    exact hmarks

/-- An at-keyword is written as it was read. -/
theorem keyword_eq (h : Marked ts) {t : Token} (ht : t ∈ ts) (hkind : t.kind = .atKeyword) :
    "@" ++ t.keyword = t.raw := by
  have hmarks := h.marks t ht
  rw [hkind] at hmarks
  obtain ⟨name, hname⟩ := hmarks
  rw [← String.toList_inj, Token.keyword, hname]
  simp

theorem ne_ending (h : Marked ts) (t : Token) (ht : t ∈ ts) : t.kind ≠ .ending := by
  intro hkind
  have hmarks := h.marks t ht
  rw [hkind] at hmarks
  exact hmarks

end Marked

/-- What reading relies on in tokens: the marks of their classes, and that no line feed at the end
of a value can be taken for one behind its mark of importance. -/
structure Lexical (ts : List Token) : Prop extends Marked ts where
  feeds : FeedsEscaped ts

theorem Lexical.mono {ts us : List Token} (h : Lexical us) (hsub : ts ⊆ us) : Lexical ts :=
  ⟨h.toMarked.mono hsub, h.feeds.mono hsub⟩

/-- A declaration in front of some tokens is written as it stands there. -/
def FrontJoins (ts : List Token) : Prop :=
  ∀ t ∈ ts.head?, t.kind.StartsStatement →
    ∀ d : DeclarationCut (Prelude.read [] ts).tokens, d.Exact → d.Joins

namespace Builder

/-- What has been read, and the tokens still to be read, make up the source. -/
structure Writes (source : String) (b : Builder) (ts : List Token) : Prop where
  text : outerText b.outer ++ b.frame.written ++ b.pending ++ rawText ts = source
  stacked : Stacked b.frame b.outer
  settled : b.frame.Settled ∨ ClosesNext ts
  marked : Marked ts
  noted : ∀ f ∈ b.faults, f.cause ≠ .unclosedBlock

namespace Writes

variable {source : String} {b : Builder} {ts rest taken : List Token}

/-- Before anything but a closing brace, the innermost container is settled. -/
theorem settled_of_cons {t : Token} {r : List Token} (h : Writes source b (t :: r))
    (ht : t.kind ≠ .closeBrace) : b.frame.Settled :=
  h.settled.resolve_right fun hclose => ht (hclose t rfl)

theorem note (h : Writes source b ts) (p : Prelude) : Writes source (b.note p.fault?) ts := by
  refine ⟨h.text, h.stacked, h.settled, h.marked, fun f hf => ?_⟩
  rcases List.mem_append.1 hf with hf | hf
  · exact h.noted f hf
  · rw [Prelude.cause_of_fault? (Option.mem_toList.1 hf)]
    exact Fault.Cause.noConfusion

/-- A block is opened behind the settled children of its container. -/
theorem openBlock (h : Writes source b ts) (hsettled : b.frame.Settled) {content : Content}
    {raws : Raws} (hblock : Frame.IsBlock ⟨content, raws, []⟩)
    (htext : Frame.head ⟨content, raws, []⟩ ++ rawText rest = b.pending ++ rawText ts)
    (hrest : rest ⊆ ts) : Writes source (b.openBlock taken content raws) rest := by
  refine ⟨?_, ⟨hblock, hsettled, h.stacked⟩, Or.inl rfl, h.marked.mono hrest, h.noted⟩
  have hwritten : Frame.written ⟨content, raws, []⟩ = Frame.head ⟨content, raws, []⟩ :=
    String.append_empty
  show outerText (b.frame :: b.outer) ++ Frame.written ⟨content, raws, []⟩ ++ "" ++ _ = source
  rw [hwritten, String.append_empty, String.append_assoc, htext, outerText, ← h.text]
  simp only [String.append_assoc]

/-- A statement is added behind the settled children of its container; without a semicolon it is
the last one. -/
theorem addLine (h : Writes source b ts) (hsettled : b.frame.Settled) {t : Tree}
    (ht : t.isComment = false) {semicolon : Bool}
    (htext : t.text semicolon ++ rawText rest = b.pending ++ rawText ts) (hrest : rest ⊆ ts)
    (hend : semicolon = true ∨ ClosesNext rest) :
    Writes source ((b.setSemicolon semicolon).add taken t) rest := by
  refine ⟨?_, h.stacked.of_content_eq rfl, ?_, h.marked.mono hrest, h.noted⟩
  · show outerText b.outer ++ ((b.frame.setSemicolon semicolon).add t).written ++ "" ++ _ = source
    rw [hsettled.written_addLine ht, String.append_empty, ← h.text]
    simp only [String.append_assoc, htext]
  · rcases hend with rfl | hend
    · exact Or.inl (b.frame.settled_addLine_true t)
    · exact Or.inr hend

/-- A block is closed in a container that is settled. -/
theorem close {t : Token} (h : Writes source b (t :: rest)) (ht : t.kind = .closeBrace) {f : Frame}
    {fs : List Frame} (hb : b.outer = f :: fs) :
    Writes source { b.pass [t] with frame := f.add (b.frame.close b.pending), outer := fs }
      rest := by
  have hstacked := h.stacked
  rw [hb] at hstacked
  obtain ⟨hblock, hsettled, houter⟩ := hstacked
  have hends := hblock.endsItself_close b.pending
  have hraw := (h.marked.raw_eq List.mem_cons_self).2.1 ht
  refine ⟨?_, houter.of_content_eq rfl, Or.inl (hsettled.add hends),
    h.marked.mono (List.subset_cons_self _ _), h.noted⟩
  show outerText fs ++ (f.add (b.frame.close b.pending)).written ++ "" ++ rawText rest = source
  rw [hsettled.written_add hends, hblock.text_close, String.append_empty, ← h.text, hb, outerText,
    rawText_cons, hraw]
  simp only [String.append_assoc]

/-- A comment is added behind the settled children of its container. -/
theorem comment {t : Token} (h : Writes source b (t :: rest)) (ht : t.kind = .comment) :
    Writes source (b.add [t] (commentNode b.pending t)) rest := by
  have hsettled := h.settled_of_cons (by simp [ht])
  have hends := Tree.endsItself_commentNode b.pending t
  have htext := text_commentNode ht (h.marked.marks t List.mem_cons_self) b.pending true
  refine ⟨?_, h.stacked.of_content_eq rfl, Or.inl (hsettled.add hends),
    h.marked.mono (List.subset_cons_self _ _), h.noted⟩
  show outerText b.outer ++ (b.frame.add (commentNode b.pending t)).written ++ "" ++ _ = source
  rw [hsettled.written_add hends, htext, String.append_empty, ← h.text, rawText_cons]
  simp only [String.append_assoc]

end Writes

/-- The tokens of a statement that opens a block, and those behind it. -/
theorem rawText_of_opensBlock {p : Prelude} {ts : List Token} (hp : p = Prelude.read [] ts)
    (hopen : p.opensBlock = true) (hts : Marked ts) :
    rawText ts = rawText p.tokens ++ "\x7b" ++ rawText p.rest := by
  have happ := Prelude.taken_append_rest [] ts
  subst hp
  obtain ⟨u, hu, hkind⟩ := Prelude.exists_stop_of_opensBlock hopen
  rw [Prelude.taken, hu, Option.toList_some] at happ
  have hmem : u ∈ ts := by
    rw [← happ]
    simp
  conv_lhs => rw [← happ]
  simp [(hts.raw_eq hmem).1 hkind, String.append_assoc]

/-- The tokens of any other statement, and those behind it. -/
theorem rawText_of_not_opensBlock {p : Prelude} {ts : List Token} (hp : p = Prelude.read [] ts)
    (hopen : p.opensBlock = false) (hts : Marked ts) :
    rawText ts = rawText p.tokens ++ (if p.endsInSemicolon then ";" else "") ++ rawText p.rest ∧
      (p.endsInSemicolon = true ∨ ClosesNext p.rest) := by
  have happ := Prelude.taken_append_rest [] ts
  subst hp
  rcases Prelude.endsInSemicolon_or_closesNext hopen hts.ne_ending with
    ⟨u, hu, hkind, hsemicolon⟩ | ⟨hu, hsemicolon, hnext⟩
  · rw [Prelude.taken, hu, Option.toList_some] at happ
    have hmem : u ∈ ts := by
      rw [← happ]
      simp
    refine ⟨?_, Or.inl hsemicolon⟩
    conv_lhs => rw [← happ]
    simp [(hts.raw_eq hmem).2.2 hkind, hsemicolon, String.append_assoc]
  · rw [Prelude.taken, hu, Option.toList_none, List.append_nil] at happ
    refine ⟨?_, Or.inr hnext⟩
    conv_lhs => rw [← happ]
    simp [hsemicolon]

/-- White space in front of a statement belongs to its text. -/
theorem rawText_spacing (ts : List Token) :
    rawText ts = rawText (ts.takeWhile Token.isSpacing) ++
      rawText (ts.dropWhile Token.isSpacing) := by
  rw [← rawText_append, List.takeWhile_append_dropWhile]

/-- White space at the end is split off, and nothing is lost. -/
theorem rawText_splitTrailing (ts : List Token) :
    rawText ts = rawText (splitTrailing ts).1 ++ rawText (splitTrailing ts).2 := by
  rw [← rawText_append, splitTrailing_append]

theorem dropWhile_subset_cons (t : Token) (r : List Token) :
    r.dropWhile Token.isSpacing ⊆ t :: r :=
  List.Subset.trans (List.dropWhile_subset _) (List.subset_cons_self _ _)

theorem rest_subset {p : Prelude} {ts : List Token} (hp : p = Prelude.read [] ts) :
    p.rest ⊆ ts := by
  intro t ht
  subst hp
  rw [← Prelude.taken_append_rest [] ts]
  exact List.mem_append_right _ ht

theorem tokens_subset {p : Prelude} {ts : List Token} (hp : p = Prelude.read [] ts) :
    p.tokens ⊆ ts := by
  intro t ht
  subst hp
  rw [← Prelude.taken_append_rest [] ts, Prelude.taken]
  exact List.mem_append_left _ (List.mem_append_left _ ht)

/-- Every step keeps the invariant. -/
theorem Step.writes {source : String} {b b' : Builder} {ts ts' : List Token}
    (hstep : Step b ts b' ts') (h : Writes source b ts) (hjoins : FrontJoins ts) :
    Writes source b' ts' := by
  cases hstep with
  | @space t _ ht =>
    refine ⟨?_, h.stacked, Or.inl (h.settled_of_cons (by simp [ht])),
      h.marked.mono (List.subset_cons_self _ _), h.noted⟩
    rw [← h.text]
    simp [skip, String.append_assoc]
  | @semicolon t _ ht =>
    refine ⟨?_, h.stacked, Or.inl (h.settled_of_cons (by simp [ht])),
      h.marked.mono (List.subset_cons_self _ _), h.noted⟩
    rw [← h.text]
    simp [skipSemicolon, String.append_assoc]
  | close ht hb => exact h.close ht hb
  | comment ht => exact h.comment ht
  | @atBlock t r gap p ht hgap hp hopen =>
    have hsettled := h.settled_of_cons (by simp [ht])
    have hdrop := h.marked.mono (dropWhile_subset_cons t r)
    refine (h.note p).openBlock hsettled (Or.inr ⟨_, _, rfl⟩) ?_
      (List.Subset.trans (rest_subset hp) (dropWhile_subset_cons t r))
    -- What is in front of the children of the block is what was pending with the tokens that were
    -- taken.
    show Tree.atRuleHead _ _ _ ++ _ ++ "\x7b" ++ rawText p.rest = b.pending ++ rawText (t :: r)
    rw [rawText_cons, rawText_spacing r, ← hgap, rawText_of_opensBlock hp hopen hdrop,
      rawText_splitTrailing p.tokens, ← h.marked.keyword_eq List.mem_cons_self ht]
    simp [Tree.atRuleHead, atRuleRaws, String.append_assoc]
  | @atLine t r gap p ht hgap hp hopen =>
    have hsettled := h.settled_of_cons (by simp [ht])
    have hdrop := h.marked.mono (dropWhile_subset_cons t r)
    obtain ⟨htext, hend⟩ := rawText_of_not_opensBlock hp hopen hdrop
    refine (h.note p).addLine hsettled rfl ?_
      (List.Subset.trans (rest_subset hp) (dropWhile_subset_cons t r)) hend
    show _ = b.pending ++ rawText (t :: r)
    rw [rawText_cons, rawText_spacing r, ← hgap, htext, rawText_splitTrailing p.tokens,
      ← h.marked.keyword_eq List.mem_cons_self ht]
    simp [Tree.text, Tree.atRuleHead, atRuleRaws, String.append_assoc]
  | @rule t r p ht hp hopen =>
    have hsettled := h.settled_of_cons ht.2.2.2.1
    refine (h.note p).openBlock hsettled (Or.inl ⟨_, rfl⟩) ?_ (rest_subset hp)
    show _ ++ _ ++ _ ++ "\x7b" ++ rawText p.rest = b.pending ++ rawText (t :: r)
    rw [rawText_of_opensBlock hp hopen h.marked, rawText_splitTrailing p.tokens]
    simp [ruleRaws, String.append_assoc]
  | @declaration t r p ht hp hopen d hd =>
    have hsettled := h.settled_of_cons ht.2.2.2.1
    obtain ⟨htext, hend⟩ := rawText_of_not_opensBlock hp hopen h.marked
    refine (h.note p).addLine hsettled rfl ?_ (rest_subset hp) hend
    -- The text of a declaration is put together again from its cut.
    show _ = b.pending ++ rawText (t :: r)
    subst hp
    rw [d.text_node (hjoins t rfl ht d hd), htext]
    simp only [String.append_assoc]

end Builder

/-- Where line feeds are escaped, nothing is lost. -/
theorem FrontJoins.of_feedsEscaped {ts : List Token} (h : FeedsEscaped ts) : FrontJoins ts :=
  fun _ _ _ d _ => d.written_append_markText (h.mono (Builder.tokens_subset rfl))

namespace Reading

/-- Nothing is written before the first token. -/
theorem writes_start {source : String} {ts : List Token} (file : Option String)
    (hsource : rawText ts = source) (hts : Marked ts) :
    (Builder.start file).Writes source ts := by
  refine ⟨?_, ⟨file, rfl⟩, Or.inl rfl, hts, by simp [Builder.start]⟩
  rw [← hsource]
  simp [Builder.start, outerText, Frame.written, Frame.head, Frame.inner, Tree.texts]

/-- Where all of the source has been written, a closing brace is put behind it for each block
without an end. -/
theorem text_of_writes {source : String} {ts ts' : List Token} {file : Option String} {tree : Tree}
    {b : Builder} {pos : Position} (hb : b.Writes source ts') (hend : Builder.AtEnd ts')
    (hrun : ofTokens ts file = b.finish pos ts') (h : (ofTokens ts file).result = .ok tree) :
    tree.text false =
      source ++ closers ((ofTokens ts file).faults.countP (·.cause = .unclosedBlock)) := by
  have hts' : ts' = [] := hend.eq_nil hb.marked.ne_ending
  have hcount : (ofTokens ts file).faults.countP (·.cause = .unclosedBlock) = b.outer.length := by
    have hnoted : b.faults.countP (·.cause = .unclosedBlock) = 0 := by
      rw [List.countP_eq_zero]
      intro f hf
      simpa using hb.noted f hf
    rw [hrun]
    show (b.faults ++ b.outer.map fun _ => (⟨.unclosedBlock, pos⟩ : Fault)).countP _ = _
    rw [List.countP_append, hnoted, List.countP_map, Nat.zero_add]
    simp [Function.comp_def]
  have htree : tree = Builder.closeAll b.frame b.pending b.outer := by
    rw [hrun] at h
    exact (Except.ok.inj h).symm
  have htext := hb.text
  rw [hts', rawText_nil, String.append_empty] at htext
  rw [htree, hcount, Builder.text_closeAll _ _ _ hb.stacked, htext]

/-- A sheet is written back as it was, with a closing brace more for each block without an end. -/
theorem text_of_result {source : String} {ts : List Token} {file : Option String} {tree : Tree}
    (hsource : rawText ts = source) (hts : Lexical ts)
    (h : (ofTokens ts file).result = .ok tree) :
    tree.text false =
      source ++ closers ((ofTokens ts file).faults.countP (·.cause = .unclosedBlock)) := by
  obtain ⟨b, ts', pos, ⟨hb, -⟩, hend, hrun⟩ := Builder.run_invariant
    (P := fun b ts => b.Writes source ts ∧ FeedsEscaped ts)
    (fun hstep hb => ⟨hstep.writes hb.1 (.of_feedsEscaped hb.2), hb.2.mono hstep.suffix.subset⟩)
    _ _ ⟨writes_start file hsource hts.toMarked, hts.feeds⟩ h
  exact text_of_writes hb hend hrun h

/-- A reading that closes no blocks of its own is written back as its source. -/
theorem text_of_closed {source : String} {ts : List Token} {file : Option String} {tree : Tree}
    (hsource : rawText ts = source) (hts : Lexical ts)
    (h : (ofTokens ts file).result = .ok tree)
    (hclosed : ∀ f ∈ (ofTokens ts file).faults, f.cause ≠ .unclosedBlock) :
    tree.text false = source := by
  have hcount : (ofTokens ts file).faults.countP (·.cause = .unclosedBlock) = 0 := by
    rw [List.countP_eq_zero]
    intro f hf
    simpa using hclosed f hf
  rw [text_of_result hsource hts h, hcount]
  exact String.append_empty

end Reading

namespace SourceReading

variable {source : String} {file : Option String} {tree : Tree}

/-- What is computed from the tree of a sheet that is read comes from a tree. -/
theorem exists_of_tree_map {α : Type} {f : Tree → α} {a : α}
    (h : (ofSource source file).tree.toOption.map f = some a) :
    ∃ tree, (ofSource source file).tree = .ok tree ∧ f tree = a := by
  obtain ⟨tree, htree, ha⟩ := Option.map_eq_some_iff.1 h
  cases hread : (ofSource source file).tree with
  | error e =>
    rw [hread] at htree
    cases htree
  | ok t =>
    rw [hread] at htree
    exact ⟨t, rfl, Option.some.inj htree ▸ ha⟩

/-- A sheet that is read is read from tokens that make up its source. -/
theorem tokens_of_tree (h : (ofSource source file).tree = .ok tree) :
    (scanSource source).failure = none ∧ rawText (scanSource source).tokens = source ∧
      (Reading.ofTokens (scanSource source).tokens file).result = .ok tree ∧
      (Reading.ofTokens (scanSource source).tokens file).faults ⊆
        (ofSource source file).faults := by
  unfold SourceReading.tree ofSource at h
  cases hfailure : (scanSource source).failure with
  | some fault => simp [hfailure, Except.bind] at h
  | none =>
    simp only [hfailure] at h
    refine ⟨rfl, ?_, h, fun f hf => ?_⟩
    · rw [← String.toList_inj]
      exact (reads_scanSource hfailure).rawText_eq
    · simp [faults, ofSource, hfailure, hf]

theorem marked_tokens (h : (ofSource source file).tree = .ok tree) :
    Marked (scanSource source).tokens :=
  ⟨fun _ ht => (reads_scanSource (tokens_of_tree h).1).marks ht⟩

/-- The tokens of a source without open addresses can be relied on. -/
theorem lexical_tokens (h : (ofSource source file).tree = .ok tree)
    (hurl : ∀ f ∈ (ofSource source file).faults, f.cause ≠ .unclosedUrl) :
    Lexical (scanSource source).tokens := by
  have hreads := reads_scanSource (tokens_of_tree h).1
  refine ⟨marked_tokens h, fun t ht hkind => ⟨hreads.raw_ne_nil ht, ?_⟩⟩
  refine hreads.feedEscaped (fun f hf => hurl f ?_) ht hkind
  exact List.mem_append_left _ hf

/-- A sheet is written back character for character, if all blocks and addresses have ends. -/
theorem text_eq_source (h : (ofSource source file).tree = .ok tree)
    (hfaults : ∀ f ∈ (ofSource source file).faults,
      f.cause ≠ .unclosedBlock ∧ f.cause ≠ .unclosedUrl) :
    tree.text false = source := by
  obtain ⟨-, hsource, hresult, hsub⟩ := tokens_of_tree h
  have hlexical := lexical_tokens h fun f hf => (hfaults f hf).2
  exact Reading.text_of_closed hsource hlexical hresult fun f hf => (hfaults f (hsub hf)).1

/-- A sheet with comments, lone semicolons, a string that breaks off and brackets that do not
match. -/
def untidySheet : String :=
  "/*1*/;a[b=\"\x7d\"]\x7b c : 1px/*2*/ ! IMPORTANT ;; d:)e] 'f\n; g:h\x7d @i j;; k:(l"

/-- This sheet is written as it was read. -/
theorem text_untidySheet : ∃ tree, (ofSource untidySheet none).tree = .ok tree ∧
    (∀ f ∈ (ofSource untidySheet none).faults,
      f.cause ≠ .unclosedBlock ∧ f.cause ≠ .unclosedUrl) ∧ tree.text false = untidySheet := by
  have hfaults : ∀ f ∈ (ofSource untidySheet none).faults,
      f.cause ≠ .unclosedBlock ∧ f.cause ≠ .unclosedUrl := by
    decide +kernel
  have hok : (ofSource untidySheet none).tree.isOk = true := by
    decide +kernel
  cases htree : (ofSource untidySheet none).tree with
  | error e =>
    rw [htree] at hok
    cases hok
  | ok tree => exact ⟨tree, rfl, hfaults, text_eq_source htree hfaults⟩

end SourceReading

end PixelUnit.Sheet
