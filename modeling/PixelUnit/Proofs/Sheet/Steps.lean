import PixelUnit.Proofs.Sheet.Statements

/-!
# Steps of a reading

`Builder.Step` says what a reading does at the token in front: it passes white space or a semicolon
that ends nothing, closes a container, or adds or opens a node made of one statement. Every step
takes some tokens in front, and puts in white space behind a semicolon that ends nothing
(`Builder.Step.exists_taken`).

Where no step can be taken, the reading ends (`Builder.exists_step_or_ends`). So what holds at the
end and before a step if behind it, holds throughout (`Builder.reading_induction`), and what every
step keeps holds at the end (`Builder.exists_ends`). If the reading ends in a tree, that is at the
end of its tokens (`Builder.run_invariant`, `Builder.run_induction`).

The tree that is left then hangs together from the frames that are still open (`closeAll`).
-/
namespace PixelUnit.Sheet

/-- Whether a statement starts with a token of this class. -/
def Token.Kind.StartsStatement (k : Token.Kind) : Prop :=
  k ≠ .ending ∧ k ≠ .spacing ∧ k ≠ .semicolon ∧ k ≠ .closeBrace ∧ k ≠ .comment ∧ k ≠ .atKeyword

theorem Prelude.rest_suffix (awaited : List Token.Kind) (ts : List Token) :
    (read awaited ts).rest <:+ ts :=
  ⟨_, taken_append_rest awaited ts⟩

/-- No statement reaches behind a token that ends the source. -/
theorem Prelude.ne_ending_of_mem_taken (awaited : List Token.Kind) (ts : List Token) :
    ∀ t ∈ (read awaited ts).taken, t.kind ≠ .ending := by
  fun_induction read awaited ts with
  | case1 | case2 | case7 => exact List.forall_mem_nil _
  | case3 awaited t r ht _ ih | case4 awaited t r ht _ _ ih | case5 awaited t r ht _ _ _ ih
  | case8 awaited t r ht _ _ _ _ _ ih =>
    exact List.forall_mem_cons.2 ⟨by simpa using ht, ih⟩
  | case6 awaited t r ht => exact List.forall_mem_singleton.2 (by simpa using ht)

/-- A statement that opens a block takes the brace. -/
theorem Prelude.taken_ne_nil_of_opensBlock {p : Prelude} (h : p.opensBlock = true) :
    p.taken ≠ [] := by
  intro hnil
  have hstop := Option.toList_eq_nil_iff.1 (List.append_eq_nil_iff.1 hnil).2
  simp [opensBlock, hstop] at h

namespace Builder

/-- The white space behind the parameters of an at-rule and around its name. -/
def atRuleRaws (before : String) (gap : List Token) (p : Prelude) : Raws where
  before := some before
  afterName := some (rawText gap)
  between := some (rawText (splitTrailing p.tokens).2)

/-- The white space around a selector. -/
def ruleRaws (before : String) (p : Prelude) : Raws where
  before := some before
  between := some (rawText (splitTrailing p.tokens).2)

/-- Notes whether the last child of the innermost container ends in a semicolon. -/
def setSemicolon (b : Builder) (semicolon : Bool) : Builder :=
  { b with frame := b.frame.setSemicolon semicolon }

/-- One step of a reading, at the token in front. -/
inductive Step : Builder → List Token → Builder → List Token → Prop
  | space {b : Builder} {t : Token} {r : List Token} (ht : t.kind = .spacing) :
      Step b (t :: r) (b.skip t) r
  | semicolon {b : Builder} {t : Token} {r : List Token} (ht : t.kind = .semicolon) :
      Step b (t :: r) (b.skipSemicolon t) r
  | close {b : Builder} {t : Token} {r : List Token} {f : Frame} {fs : List Frame}
      (ht : t.kind = .closeBrace) (hb : b.outer = f :: fs) :
      Step b (t :: r) { b.pass [t] with frame := f.add (b.frame.close b.pending), outer := fs } r
  | comment {b : Builder} {t : Token} {r : List Token} (ht : t.kind = .comment) :
      Step b (t :: r) (b.add [t] (commentNode b.pending t)) r
  | atBlock {b : Builder} {t : Token} {r gap : List Token} {p : Prelude} (ht : t.kind = .atKeyword)
      (hgap : gap = r.takeWhile Token.isSpacing)
      (hp : p = Prelude.read [] (r.dropWhile Token.isSpacing)) (hopen : p.opensBlock = true) :
      Step b (t :: r) ((b.note p.fault?).openBlock (t :: gap ++ p.taken)
        (.atRule t.keyword (rawText (splitTrailing p.tokens).1) true)
        (atRuleRaws b.pending gap p)) p.rest
  | atLine {b : Builder} {t : Token} {r gap : List Token} {p : Prelude} (ht : t.kind = .atKeyword)
      (hgap : gap = r.takeWhile Token.isSpacing)
      (hp : p = Prelude.read [] (r.dropWhile Token.isSpacing)) (hopen : p.opensBlock = false) :
      Step b (t :: r) (((b.note p.fault?).setSemicolon p.endsInSemicolon).add (t :: gap ++ p.taken)
        (.node (.atRule t.keyword (rawText (splitTrailing p.tokens).1) false)
          (atRuleRaws b.pending gap p) [])) p.rest
  | rule {b : Builder} {t : Token} {r : List Token} {p : Prelude} (ht : t.kind.StartsStatement)
      (hp : p = Prelude.read [] (t :: r)) (hopen : p.opensBlock = true) :
      Step b (t :: r) ((b.note p.fault?).openBlock p.taken
        (.rule (rawText (splitTrailing p.tokens).1)) (ruleRaws b.pending p)) p.rest
  | declaration {b : Builder} {t : Token} {r : List Token} {p : Prelude}
      (ht : t.kind.StartsStatement) (hp : p = Prelude.read [] (t :: r))
      (hopen : p.opensBlock = false) (d : DeclarationCut p.tokens) (hd : d.Exact) :
      Step b (t :: r) (((b.note p.fault?).setSemicolon p.endsInSemicolon).add p.taken
        (.node d.content (d.raws b.pending) [])) p.rest

/-- The white space that is put in behind a semicolon that ends nothing. -/
def repeated (b : Builder) (t : Token) : Token :=
  ⟨.spacing, b.pending ++ t.raw, t.pos⟩

/-- What is put in behind the token in front. -/
def putIn (b : Builder) (ts : List Token) : List Token :=
  match ts.head? with
  | some t => if t.kind = .semicolon then [b.repeated t] else []
  | none => []

theorem putIn_of_ne (b : Builder) {t : Token} (ht : t.kind ≠ .semicolon) (r : List Token) :
    b.putIn (t :: r) = [] := by
  simp [putIn, ht]

/-- The tokens of an at-rule. -/
theorem exists_taken_atRule {t : Token} (ht : t.kind = .atKeyword) (r : List Token) :
    t :: r = (t :: r.takeWhile Token.isSpacing ++
        (Prelude.read [] (r.dropWhile Token.isSpacing)).taken) ++
          (Prelude.read [] (r.dropWhile Token.isSpacing)).rest ∧
      ∀ u ∈ t :: r.takeWhile Token.isSpacing ++
        (Prelude.read [] (r.dropWhile Token.isSpacing)).taken, u.kind ≠ .ending := by
  constructor
  · rw [List.append_assoc, Prelude.taken_append_rest, List.cons_append,
      List.takeWhile_append_dropWhile]
  · refine List.forall_mem_append.2 ⟨List.forall_mem_cons.2 ⟨by simp [ht], fun u hu => ?_⟩,
      Prelude.ne_ending_of_mem_taken [] _⟩
    have hspacing : u.kind = .spacing := by
      simpa [Token.isSpacing] using List.mem_takeWhile_imp hu
    simp [hspacing]

/-- A step takes some tokens in front, none of which ends the source, and they are then among those
that were read, with what is put in behind them. -/
theorem Step.exists_taken {b b' : Builder} {ts ts' : List Token} (h : Step b ts b' ts') :
    ∃ taken, taken ≠ [] ∧ ts = taken ++ ts' ∧ (∀ t ∈ taken, t.kind ≠ .ending) ∧
      b'.seen = (taken ++ b.putIn ts).reverse ++ b.seen := by
  cases h with
  | @space t r ht => exact ⟨[t], by simp, rfl, by simp [ht], by simp [putIn, ht, skip]⟩
  | @semicolon t r ht =>
    exact ⟨[t], by simp, rfl, by simp [ht], by simp [putIn, ht, skipSemicolon, repeated]⟩
  | @close t r f fs ht hb => exact ⟨[t], by simp, rfl, by simp [ht], by simp [putIn, ht, pass]⟩
  | @comment t r ht => exact ⟨[t], by simp, rfl, by simp [ht], by simp [putIn, ht, add, pass]⟩
  | @atBlock t r gap p ht hgap hp hopen =>
    subst hgap hp
    obtain ⟨htokens, hending⟩ := exists_taken_atRule ht r
    exact ⟨_, by simp, htokens, hending, by simp [putIn, ht, openBlock, pass, note]⟩
  | @atLine t r gap p ht hgap hp hopen =>
    subst hgap hp
    obtain ⟨htokens, hending⟩ := exists_taken_atRule ht r
    exact ⟨_, by simp, htokens, hending, by simp [putIn, ht, add, pass, note, setSemicolon]⟩
  | @rule t r p ht hp hopen =>
    subst hp
    exact ⟨_, Prelude.taken_ne_nil_of_opensBlock hopen, (Prelude.taken_append_rest [] _).symm,
      Prelude.ne_ending_of_mem_taken [] _,
      by simp [b.putIn_of_ne ht.2.2.1, openBlock, pass, note]⟩
  | @declaration t r p ht hp hopen d hd =>
    subst hp
    exact ⟨(Prelude.read [] (t :: r)).taken, d.taken_ne_nil,
      (Prelude.taken_append_rest [] _).symm, Prelude.ne_ending_of_mem_taken [] _,
      by simp [b.putIn_of_ne ht.2.2.1, add, pass, note, setSemicolon]⟩

/-- A step leaves the last tokens. -/
theorem Step.suffix {b b' : Builder} {ts ts' : List Token} (h : Step b ts b' ts') : ts' <:+ ts := by
  obtain ⟨taken, -, htokens, -⟩ := h.exists_taken
  exact ⟨taken, htokens.symm⟩

/-- A step leaves fewer tokens. -/
theorem Step.length_lt {b b' : Builder} {ts ts' : List Token} (h : Step b ts b' ts') :
    ts'.length < ts.length := by
  obtain ⟨taken, hne, rfl, -⟩ := h.exists_taken
  have hpos := List.length_pos_iff.2 hne
  rw [List.length_append]
  omega

theorem addComment_eq (b : Builder) (t : Token) :
    b.addComment t = b.add [t] (commentNode b.pending t) := by
  unfold addComment commentNode
  by_cases htext : t.text.isEmpty <;> simp [htext]

/-- A step is taken for an at-rule, with or without a block. -/
theorem step_addAtRule {b : Builder} {t : Token} {r : List Token} (ht : t.kind = .atKeyword) :
    Step b (t :: r)
      (b.addAtRule t (r.takeWhile Token.isSpacing) (Prelude.read [] (r.dropWhile Token.isSpacing)))
      (Prelude.read [] (r.dropWhile Token.isSpacing)).rest := by
  cases hopen : (Prelude.read [] (r.dropWhile Token.isSpacing)).opensBlock with
  | true =>
    simp only [addAtRule, hopen, if_true]
    exact .atBlock ht rfl rfl hopen
  | false =>
    simp only [addAtRule, hopen, Bool.false_eq_true, if_false]
    exact .atLine ht rfl rfl hopen

/-- A step is taken for a statement that is a declaration or opens a rule. -/
theorem step_addStatement {b b' : Builder} {t : Token} {r : List Token}
    (ht : t.kind.StartsStatement)
    (h : (b.note (Prelude.read [] (t :: r)).fault?).addStatement (Prelude.read [] (t :: r)) =
      some b') : Step b (t :: r) b' (Prelude.read [] (t :: r)).rest := by
  cases hopen : (Prelude.read [] (t :: r)).opensBlock with
  | true =>
    rw [addStatement, if_pos hopen] at h
    cases h
    exact .rule ht rfl hopen
  | false =>
    rw [addStatement, if_neg (by simp [hopen])] at h
    obtain ⟨⟨content, raws⟩, hdecl, rfl⟩ := Option.map_eq_some_iff.1 h
    obtain ⟨d, hd, rfl, rfl⟩ := exists_cut_of_declarationOf hdecl
    exact .declaration ht rfl hopen d hd

/-! What a reading does at the token in front. -/

section Run

variable {b : Builder} {t : Token} {r : List Token}

theorem run_of_ending (ht : t.kind = .ending) : b.run (t :: r) = b.finish t.pos (t :: r) := by
  rw [run]
  simp [ht]

theorem run_of_spacing (ht : t.kind = .spacing) : b.run (t :: r) = (b.skip t).run r := by
  rw [run]
  simp [ht]

theorem run_of_semicolon (ht : t.kind = .semicolon) :
    b.run (t :: r) = (b.skipSemicolon t).run r := by
  rw [run]
  simp [ht]

theorem run_of_closeBrace (ht : t.kind = .closeBrace) : b.run (t :: r) =
    match b.closeBlock t with
    | some b' => b'.run r
    | none => b.fail ⟨.unexpectedClose, t.pos⟩ (t :: r) := by
  cases hclose : b.closeBlock t with
  | none | some =>
    rw [run]
    simp only [ht, hclose]

theorem run_of_comment (ht : t.kind = .comment) : b.run (t :: r) = (b.addComment t).run r := by
  rw [run]
  simp [ht]

theorem run_of_atKeyword (ht : t.kind = .atKeyword) : b.run (t :: r) =
    (b.addAtRule t (r.takeWhile Token.isSpacing)
      (Prelude.read [] (r.dropWhile Token.isSpacing))).run
        (Prelude.read [] (r.dropWhile Token.isSpacing)).rest := by
  rw [run]
  simp [ht]

theorem run_of_startsStatement (ht : t.kind.StartsStatement) : b.run (t :: r) =
    match (b.note (Prelude.read [] (t :: r)).fault?).addStatement (Prelude.read [] (t :: r)) with
    | some b' => b'.run (Prelude.read [] (t :: r)).rest
    | none =>
      ((b.note (Prelude.read [] (t :: r)).fault?).pass (Prelude.read [] (t :: r)).taken).fail
        ⟨.unknownWord, t.pos⟩ (Prelude.read [] (t :: r)).rest := by
  obtain ⟨h1, h2, h3, h4, h5, h6⟩ := ht
  rw [run]
  split <;> first | contradiction | skip
  dsimp only
  split <;> split <;> simp_all

end Run

/-- A reading goes on behind every step. -/
theorem Step.run_eq {b b' : Builder} {ts ts' : List Token} (h : Step b ts b' ts') :
    b.run ts = b'.run ts' := by
  cases h with
  | space ht => exact run_of_spacing ht
  | semicolon ht => exact run_of_semicolon ht
  | close ht hb =>
    rw [run_of_closeBrace ht, closeBlock, hb]
  | comment ht => rw [run_of_comment ht, addComment_eq]
  | atBlock ht hgap hp hopen =>
    subst hgap hp
    rw [run_of_atKeyword ht]
    simp only [addAtRule, hopen, if_true]
    rfl
  | atLine ht hgap hp hopen =>
    subst hgap hp
    rw [run_of_atKeyword ht]
    simp only [addAtRule, hopen, Bool.false_eq_true, if_false]
    rfl
  | rule ht hp hopen =>
    subst hp
    rw [run_of_startsStatement ht]
    simp only [addStatement, hopen, if_true]
    rfl
  | declaration ht hp hopen d hd =>
    subst hp
    rw [run_of_startsStatement ht]
    simp only [addStatement, hopen, Bool.false_eq_true, if_false, d.declarationOf_eq hd,
      Option.map_some]
    rfl

/-- Nothing is left to read: the tokens are used up, or the one in front ends them. -/
def AtEnd (ts : List Token) : Prop :=
  ∀ t, ts.head? = some t → t.kind = .ending

/-- Without a token that ends them, the tokens are used up. -/
theorem AtEnd.eq_nil {ts : List Token} (h : AtEnd ts) (hts : ∀ t ∈ ts, t.kind ≠ .ending) :
    ts = [] := by
  cases ts with
  | nil => rfl
  | cons t r => exact absurd (h t rfl) (hts t List.mem_cons_self)

/-- Where and how readings end: when the tokens are used up, at one that ends them, at a closing
brace with no block around it, or at a statement that is neither a rule nor a declaration. -/
inductive Ends : Builder → List Token → Reading → Prop
  | usedUp {b : Builder} : Ends b [] (b.finish .nowhere [])
  | ending {b : Builder} {t : Token} {r : List Token} (ht : t.kind = .ending) :
      Ends b (t :: r) (b.finish t.pos (t :: r))
  | brace {b : Builder} {t : Token} {r : List Token} (ht : t.kind = .closeBrace)
      (hb : b.outer = []) : Ends b (t :: r) (b.fail ⟨.unexpectedClose, t.pos⟩ (t :: r))
  | statement {b : Builder} {t : Token} {r : List Token} {p : Prelude}
      (ht : t.kind.StartsStatement) (hp : p = Prelude.read [] (t :: r))
      (hnone : (b.note p.fault?).addStatement p = none) :
      Ends b (t :: r) (((b.note p.fault?).pass p.taken).fail ⟨.unknownWord, t.pos⟩ p.rest)

/-- A reading that has not ended takes a step. -/
theorem exists_step_or_ends (b : Builder) (ts : List Token) :
    (∃ b' ts', Step b ts b' ts') ∨ Ends b ts (b.run ts) := by
  fun_cases b.run ts with
  | case1 => exact Or.inr .usedUp
  | case2 t r ht => exact Or.inr (.ending ht)
  | case3 t r ht => exact Or.inl ⟨_, _, .space ht⟩
  | case4 t r ht => exact Or.inl ⟨_, _, .semicolon ht⟩
  | case5 t r ht b' hb =>
    unfold closeBlock at hb
    split at hb
    · cases hb
    · next houter => exact Or.inl ⟨_, _, .close ht houter⟩
  | case6 t r ht hb =>
    unfold closeBlock at hb
    split at hb
    · next houter => exact Or.inr (.brace ht houter)
    · cases hb
  | case7 t r ht => exact Or.inl ⟨_, _, .comment ht⟩
  | case8 t r ht => exact Or.inl ⟨_, _, step_addAtRule ht⟩
  | case9 t r p b' hb h1 h2 h3 h4 h5 h6 =>
    exact Or.inl ⟨_, _, step_addStatement ⟨h1, h2, h3, h4, h5, h6⟩ hb⟩
  | case10 t r p hb h1 h2 h3 h4 h5 h6 =>
    exact Or.inr (.statement ⟨h1, h2, h3, h4, h5, h6⟩ rfl hb)

/-- What holds where a reading ends, and before a step if behind it, holds throughout. -/
theorem reading_induction {P : Builder → List Token → Prop}
    (hend : ∀ {b ts}, Ends b ts (b.run ts) → P b ts)
    (hstep : ∀ {b ts b' ts'}, Step b ts b' ts' → P b' ts' → P b ts) (b : Builder)
    (ts : List Token) : P b ts := by
  obtain ⟨b', ts', h⟩ | h := b.exists_step_or_ends ts
  · exact hstep h (reading_induction hend hstep b' ts')
  · exact hend h
termination_by ts.length
decreasing_by exact h.length_lt

/-- What holds at the end of a reading that gives a tree, and before a step if behind it, holds at
its start. -/
theorem run_induction {P : Builder → List Token → Prop}
    (hend : ∀ {b ts} pos, AtEnd ts → b.run ts = b.finish pos ts → P b ts)
    (hstep : ∀ {b ts b' ts'}, Step b ts b' ts' → P b' ts' → P b ts) (b : Builder)
    (ts : List Token) {tree : Tree} (hok : (b.run ts).result = .ok tree) : P b ts := by
  refine reading_induction (P := fun b ts => (b.run ts).result = .ok tree → P b ts) ?_ ?_ b ts hok
  · intro b ts hends hok
    generalize hrun : b.run ts = reading at hends hok
    cases hends with
    | usedUp => exact hend .nowhere (by simp [AtEnd]) hrun
    | @ending t r ht => exact hend t.pos (by simp [AtEnd, ht]) hrun
    | brace | statement => cases hok
  · intro b ts b' ts' hstep' ih hok
    rw [hstep'.run_eq] at hok
    exact hstep hstep' (ih hok)

/-- What every step keeps holds where a reading ends, with a tree or not. -/
theorem exists_ends {P : Builder → List Token → Prop}
    (hstep : ∀ {b ts b' ts'}, Step b ts b' ts' → P b ts → P b' ts') (b : Builder)
    (ts : List Token) (h : P b ts) : ∃ b' ts', P b' ts' ∧ Ends b' ts' (b.run ts) := by
  refine reading_induction (P := fun b ts => P b ts → ∃ b' ts', P b' ts' ∧ Ends b' ts' (b.run ts))
    ?_ ?_ b ts h
  · exact fun {b ts} hends h => ⟨b, ts, h, hends⟩
  · intro b ts b' ts' hstep' ih h
    rw [hstep'.run_eq]
    exact ih (hstep hstep' h)

/-- What every step keeps holds at the end of a reading that gives a tree. -/
theorem run_invariant {P : Builder → List Token → Prop}
    (hstep : ∀ {b ts b' ts'}, Step b ts b' ts' → P b ts → P b' ts') (b : Builder)
    (ts : List Token) (h : P b ts) {tree : Tree} (hok : (b.run ts).result = .ok tree) :
    ∃ b' ts' pos, P b' ts' ∧ AtEnd ts' ∧ b.run ts = b'.finish pos ts' := by
  obtain ⟨b', ts', hP, hends⟩ := exists_ends hstep b ts h
  generalize b.run ts = reading at hends hok
  cases hends with
  | usedUp => exact ⟨b', [], .nowhere, hP, by simp [AtEnd], rfl⟩
  | @ending t r ht => exact ⟨b', t :: r, t.pos, hP, by simp [AtEnd, ht], rfl⟩
  | brace | statement => cases hok

end Builder

end PixelUnit.Sheet
