import PixelUnit.Proofs.Sheet.Outline

/-!
# Where faults are reported

What is wrong with a sheet is reported at a place in its source, of one of its characters or behind
the last (`Position.IsIn`): at the token that is wrong, at a closing brace, or at the first token of
a statement. The one exception is a block without an end. There is no token to report it at, and it
is reported at a place that is in no source (`Position.not_isIn_nowhere`). So all faults are
reported in the source exactly if the source does not end within a block
(`SourceReading.isIn_of_reports`).
-/

namespace PixelUnit.Sheet

/-- A place in a source: of one of its characters, or behind the last of them. -/
def Position.IsIn (p : Position) (source : String) : Prop :=
  ∃ front back, source = front ++ back ∧ p = .behind front

/-- Lines and columns of a source are counted from one. -/
theorem Position.IsIn.pos {p : Position} {source : String} (h : p.IsIn source) :
    1 ≤ p.line ∧ 1 ≤ p.column := by
  obtain ⟨front, back, -, rfl⟩ := h
  exact ⟨Nat.le_add_right 1 _, Nat.le_add_right 1 _⟩

theorem Position.not_isIn_nowhere (source : String) : ¬Position.nowhere.IsIn source :=
  fun h => absurd h.pos.1 (by decide)

/-! ## Tokens -/

/-- The texts of the tokens are the source, or its start. -/
theorem exists_append_of_scanSource (source : String) :
    ∃ back, source = rawText (scanSource source).tokens ++ back := by
  have hcovers : Scanner.Covers .start source.toList (scanSource source) :=
    Scanner.covers_scan (.ofSource source.toList)
  cases hcovers with
  | all failure tokens => exact ⟨"", by rw [String.append_empty, ← String.toList_inj, tokens]⟩
  | upTo body failure text_eq =>
    exact ⟨String.ofList ('/' :: '*' :: body), by rw [← String.toList_inj, text_eq]; simp⟩

theorem ne_ending_of_scanSource {source : String} (h : (scanSource source).failure = none) :
    ∀ t ∈ (scanSource source).tokens, t.kind ≠ .ending := fun t ht hkind => by
  simpa [hkind, Token.Kind.Marks] using (reads_scanSource h).marks ht

/-- Every token stands in its source. -/
theorem isIn_of_mem {source : String} {t : Token} (ht : t ∈ (scanSource source).tokens) :
    t.pos.IsIn source := by
  obtain ⟨pre, post, htokens⟩ := List.append_of_mem ht
  obtain ⟨back, hback⟩ := exists_append_of_scanSource source
  refine ⟨rawText pre, rawText (t :: post) ++ back, ?_, pos_of_scanSource htokens⟩
  rw [htokens, rawText_append] at hback
  rw [← String.append_assoc]
  exact hback

/-! ## Readings -/

/-- A fault is noted, or it ends the reading. -/
def Reading.Reports (r : Reading) (f : Fault) : Prop :=
  f ∈ r.faults ∨ r.result = .error f

/-- The fault that is noted for a block without an end when the tokens are used up. -/
def Fault.openBlock : Fault := ⟨.unclosedBlock, .nowhere⟩

namespace Builder

variable {b b' : Builder} {tokens ts ts' : List Token} {r : Reading} {f : Fault}

/-- Every fault that was noted stands at a token, and what is left to read are tokens, too. -/
structure NotesTokens (tokens : List Token) (b : Builder) (ts : List Token) : Prop where
  subset : ts ⊆ tokens
  at_token : ∀ f ∈ b.faults, ∃ t ∈ tokens, f.pos = t.pos

/-- What is noted of a statement stands at a token. -/
theorem NotesTokens.note (h : NotesTokens tokens b ts) {us : List Token} (hus : us ⊆ ts) :
    ∀ f ∈ (b.note (Prelude.read [] us).fault?).faults, ∃ t ∈ tokens, f.pos = t.pos := by
  intro f hf
  rcases List.mem_append.1 hf with hf | hf
  · exact h.at_token f hf
  · -- a bracket is reported at the first token of its statement
    have hfault := Option.mem_toList.1 hf
    rw [Prelude.fault?] at hfault
    split at hfault
    · obtain ⟨t, ht, rfl⟩ := Option.map_eq_some_iff.1 hfault
      have htaken := Prelude.taken_append_rest [] us
      refine ⟨t, h.subset (hus ?_), rfl⟩
      rw [← htaken]
      exact List.mem_append_left _ (List.mem_append_left _ (List.mem_of_mem_head? ht))
    · cases hfault

/-- A step notes nothing but what stands at tokens. -/
theorem Step.notesTokens (hstep : Step b ts b' ts') (h : NotesTokens tokens b ts) :
    NotesTokens tokens b' ts' := by
  refine ⟨List.Subset.trans hstep.suffix.subset h.subset, ?_⟩
  cases hstep with
  | space | semicolon | close | comment => exact h.at_token
  | atBlock _ _ hp | atLine _ _ hp =>
    subst hp
    exact h.note (dropWhile_subset_cons _ _)
  | rule _ hp | declaration _ hp =>
    subst hp
    exact h.note (List.Subset.refl _)

/-- A reading that noted faults at tokens reports faults at tokens, and blocks that are open when
the tokens are used up. -/
theorem Ends.reports (hends : Ends b ts r) (h : NotesTokens tokens b ts) (hb : b.Unended)
    (hts : ∀ t ∈ ts, t.kind ≠ .ending) (hf : r.Reports f) :
    (∃ t ∈ tokens, f.pos = t.pos) ∧ f.cause ≠ .unclosedBlock ∨
      f = .openBlock ∧ ∃ n, r.outcome = .accepted (n + 1) := by
  cases hends with
  | usedUp =>
    rcases hf with hf | hf
    · rcases List.mem_append.1 hf with hf | hf
      · exact Or.inl ⟨h.at_token f hf, hb f hf⟩
      · obtain ⟨g, hg, rfl⟩ := List.mem_map.1 hf
        refine Or.inr ⟨rfl, b.outer.length - 1, ?_⟩
        rw [outcome_finish hb, Outline.run_nil, Nat.sub_add_cancel (List.length_pos_of_mem hg)]
    · cases hf
  | ending ht => exact absurd ht (hts _ List.mem_cons_self)
  | @brace t us ht =>
    rcases hf with hf | hf
    · exact Or.inl ⟨h.at_token f hf, hb f hf⟩
    · cases hf
      exact Or.inl ⟨⟨t, h.subset List.mem_cons_self, rfl⟩, nofun⟩
  | @statement t us p ht hp =>
    rcases hf with hf | hf
    · subst hp
      exact Or.inl ⟨h.note (List.Subset.refl _) f hf, hb.note _ f hf⟩
    · cases hf
      exact Or.inl ⟨⟨t, h.subset List.mem_cons_self, rfl⟩, nofun⟩

/-- So does every reading from its start. -/
theorem reports_run {file : Option String} (hts : ∀ t ∈ ts, t.kind ≠ .ending)
    (hf : ((start file).run ts).Reports f) :
    (∃ t ∈ ts, f.pos = t.pos) ∧ f.cause ≠ .unclosedBlock ∨
      f = .openBlock ∧ ∃ n, ((start file).run ts).outcome = .accepted (n + 1) := by
  obtain ⟨b, ts', ⟨hnotes, hb⟩, hends⟩ := exists_ends
    (P := fun b ts' => NotesTokens ts b ts' ∧ b.Unended)
    (fun hstep ⟨hnotes, hb⟩ => ⟨hstep.notesTokens hnotes, hstep.unended hb⟩) (start file) ts
    ⟨⟨List.Subset.refl ts, List.forall_mem_nil _⟩, List.forall_mem_nil _⟩
  exact hends.reports hnotes hb (fun t ht => hts t (hnotes.subset ht)) hf

end Builder

/-! ## Sources -/

namespace SourceReading

variable {source : String} {file : Option String} {f : Fault}

/-- A fault is noted, or it ends the scanning or the reading. -/
def Reports (s : SourceReading) (f : Fault) : Prop :=
  f ∈ s.faults ∨ s.tree = .error f

theorem reports_of_failure {e : Fault} (h : (scanSource source).failure = some e)
    (hf : (ofSource source file).Reports f) : f ∈ (scanSource source).final.faults ∨ f = e := by
  simp only [Reports, faults, tree, ofSource, h, List.append_nil, Except.bind] at hf
  exact hf.imp_right fun hf => (Except.error.inj hf).symm

/-- What is reported is found in scanning or in reading. -/
theorem reports_iff (h : (scanSource source).failure = none) :
    (ofSource source file).Reports f ↔ f ∈ (scanSource source).final.faults ∨
      ((Builder.start file).run (scanSource source).tokens).Reports f := by
  simp only [Reports, Reading.Reports, faults, tree, ofSource, h, List.mem_append, or_assoc]
  rfl

/-- A fault that scanning notes stands at its token. -/
theorem isIn_of_fault (hf : f ∈ (scanSource source).final.faults) : f.pos.IsIn source := by
  obtain ⟨t, ht, -, hpos⟩ := exists_token_of_fault hf
  rw [hpos]
  exact isIn_of_mem ht

/-- All but blocks that are open at the end is reported in the source. -/
theorem isIn_or_openBlock (hf : (ofSource source file).Reports f) :
    f.pos.IsIn source ∨ f = .openBlock ∧ (scanSource source).failure = none ∧
      ∃ n, Outline.run 0 ((scanSource source).tokens.map Token.kind) = .accepted (n + 1) := by
  cases hfailure : (scanSource source).failure with
  | some e =>
    rcases reports_of_failure hfailure hf with hf | rfl
    · exact Or.inl (isIn_of_fault hf)
    · obtain ⟨back, hback⟩ := exists_append_of_scanSource source
      rw [pos_of_failure hfailure]
      exact Or.inl ⟨_, back, hback, rfl⟩
  | none =>
    have hts := ne_ending_of_scanSource hfailure
    rcases (reports_iff hfailure).1 hf with hf | hf
    · exact Or.inl (isIn_of_fault hf)
    rcases Builder.reports_run hts hf with ⟨⟨t, ht, hpos⟩, -⟩ | ⟨rfl, n, hn⟩
    · rw [hpos]
      exact Or.inl (isIn_of_mem ht)
    · rw [Builder.outcome_run (.start file) _ hts (List.forall_mem_nil _)] at hn
      exact Or.inr ⟨rfl, rfl, n, hn⟩

/-- Where blocks are open at the end of the source, that is reported, and in no place of it. -/
theorem reports_openBlock {n : Nat} (hfailure : (scanSource source).failure = none)
    (hn : Outline.run 0 ((scanSource source).tokens.map Token.kind) = .accepted (n + 1)) :
    (ofSource source file).Reports .openBlock := by
  have hts := ne_ending_of_scanSource hfailure
  have houtcome := Builder.outcome_run (.start file) _ hts (List.forall_mem_nil _)
  rw [show (Builder.start file).outer.length = 0 from rfl, hn, Reading.outcome] at houtcome
  split at houtcome
  · have hcount : 0 < ((Builder.start file).run (scanSource source).tokens).faults.countP
        (·.cause = .unclosedBlock) := by
      rw [Outcome.accepted.inj houtcome]
      exact Nat.succ_pos n
    obtain ⟨f, hf, hcause⟩ := List.countP_pos_iff.1 hcount
    rcases Builder.reports_run hts (Or.inl hf) with ⟨-, hne⟩ | ⟨rfl, -⟩
    · exact absurd (of_decide_eq_true hcause) hne
    · exact (reports_iff hfailure).2 (Or.inr (Or.inl hf))
  · cases houtcome

/-- Whatever is noted, or ends the scanning or the reading, is reported in the source, unless it is
a block without an end; so all is reported in the source exactly if no block is open at its end. -/
theorem isIn_of_reports (source : String) (file : Option String) :
    (∀ f, (ofSource source file).Reports f →
      f.pos.IsIn source ∧ 1 ≤ f.pos.line ∧ 1 ≤ f.pos.column ∨ f = ⟨.unclosedBlock, ⟨0, 0⟩⟩) ∧
      ((∀ f, (ofSource source file).Reports f → f.pos.IsIn source) ↔
        ∀ n, (scanSource source).failure = none →
          Outline.run 0 ((scanSource source).tokens.map Token.kind) ≠ .accepted (n + 1)) := by
  constructor
  · intro f hf
    rcases isIn_or_openBlock hf with h | ⟨rfl, -⟩
    · exact Or.inl ⟨h, h.pos⟩
    · exact Or.inr rfl
  constructor
  · intro hall n hfailure hn
    exact Position.not_isIn_nowhere source (hall _ (reports_openBlock hfailure hn))
  · intro hclosed f hf
    rcases isIn_or_openBlock hf with h | ⟨-, hfailure, n, hn⟩
    · exact h
    · exact absurd hn (hclosed n hfailure)

/-- A rule whose block has no end. -/
def unendedRule : String := "a\x7b"

/-- The fault of this rule does not stand in its source. -/
theorem not_isIn_unendedRule :
    ¬∀ f, (ofSource unendedRule none).Reports f → f.pos.IsIn unendedRule := by
  intro hall
  have hfaults : (ofSource unendedRule none).faults = [⟨.unclosedBlock, ⟨0, 0⟩⟩] := by
    decide +kernel
  exact Position.not_isIn_nowhere _ (hall _ (Or.inl (by rw [hfaults]; exact List.mem_cons_self)))

end SourceReading

end PixelUnit.Sheet
