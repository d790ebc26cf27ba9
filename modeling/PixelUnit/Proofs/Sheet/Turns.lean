import PixelUnit.Proofs.Sheet.Steps

/-!
# Turns of a reading

A reading adds to the tokens that it reads: behind a semicolon that ends nothing it puts in white
space that repeats the text since the last node, and reads this next (`Builder.Turn`). No fewer
tokens are left then. But white space has come in the place of a semicolon, and behind white space
nothing is ever put in, so a reading comes to its end within two turns for each token that it was
given (`Builder.Turns.le`).

It ends where no further turn can be made (`Builder.exists_turn_or_ends`). If it gives a tree, that
is at the first token that ends the source, or behind all tokens if there is none
(`Reading.ends_after_turns`).
-/

namespace PixelUnit.Sheet

namespace Builder

variable {b b' : Builder} {ts ts' : List Token}

/-! ## Turns -/

/-- One turn of a reading. It is a step, but for a semicolon that ends nothing: then white space is
put in front of what is left, and no text is kept. -/
inductive Turn : Builder → List Token → Builder → List Token → Prop
  | put {b : Builder} {t : Token} {r : List Token} (ht : t.kind = .semicolon) :
      Turn b (t :: r) (b.pass [t]) (b.repeated t :: r)
  | step {b b' : Builder} {ts ts' : List Token}
      (hts : ∀ t, ts.head? = some t → t.kind ≠ .semicolon) (h : Step b ts b' ts') :
      Turn b ts b' ts'

/-- A reading goes on behind every turn. -/
theorem Turn.run_eq (h : Turn b ts b' ts') : b.run ts = b'.run ts' := by
  cases h with
  | @put t r ht =>
    have hskip : (b.pass [t]).skip (b.repeated t) = b.skipSemicolon t := by
      simp [skip, pass, skipSemicolon, repeated]
    rw [run_of_semicolon ht, run_of_spacing (t := b.repeated t) rfl, hskip]
  | step _ h => exact h.run_eq

/-- What is left to do: two turns for each token, but one for white space. -/
def work (ts : List Token) : Nat :=
  ts.length + ts.countP (!·.isSpacing)

theorem work_le (ts : List Token) : work ts ≤ 2 * ts.length := by
  have hcount := List.countP_le_length (p := (!·.isSpacing)) (l := ts)
  unfold work
  omega

/-- Every turn leaves less to do, also if it puts in a token. -/
theorem Turn.work_lt (h : Turn b ts b' ts') : work ts' < work ts := by
  cases h with
  | @put t r ht => simp [work, repeated, Token.isSpacing, ht]
  | step _ h =>
    obtain ⟨taken, hne, rfl, -⟩ := h.exists_taken
    have hpos := List.length_pos_iff.2 hne
    simp only [work, List.length_append, List.countP_append]
    omega

/-- A number of turns, one after the other. -/
inductive Turns : Nat → Builder → List Token → Builder → List Token → Prop
  | none {b : Builder} {ts : List Token} : Turns 0 b ts b ts
  | cons {n : Nat} {b b₁ b' : Builder} {ts ts₁ ts' : List Token} (hturn : Turn b ts b₁ ts₁)
      (hturns : Turns n b₁ ts₁ b' ts') : Turns (n + 1) b ts b' ts'

namespace Turns

variable {n : Nat}

theorem run_eq (h : Turns n b ts b' ts') : b.run ts = b'.run ts' := by
  induction h with
  | none => rfl
  | cons hturn _ ih => exact hturn.run_eq.trans ih

/-- Every turn takes work off. -/
theorem add_work_le (h : Turns n b ts b' ts') : n + work ts' ≤ work ts := by
  induction h with
  | none => exact (Nat.zero_add _).le
  | cons hturn _ ih =>
    have hlt := hturn.work_lt
    omega

/-- There are no more than two turns for each token. -/
theorem le (h : Turns n b ts b' ts') : n ≤ 2 * ts.length := by
  have hwork := h.add_work_le
  have hle := work_le ts
  omega

end Turns

/-- As long as a reading has not ended, it can take a turn. -/
theorem exists_turn_or_ends (b : Builder) (ts : List Token) :
    (∃ b' ts', Turn b ts b' ts') ∨ Ends b ts (b.run ts) := by
  refine (exists_step_or_ends b ts).imp_left ?_
  rintro ⟨b', ts', h⟩
  by_cases hts : ∃ t r, ts = t :: r ∧ t.kind = .semicolon
  · obtain ⟨t, r, rfl, ht⟩ := hts
    exact ⟨_, _, .put ht⟩
  · refine ⟨b', ts', .step (fun t ht hkind => hts ?_) h⟩
    obtain ⟨r, rfl⟩ := List.head?_eq_some_iff.1 ht
    exact ⟨t, r, rfl, hkind⟩

/-! ## Where a reading ends -/

/-- No token that ends the source has been read. -/
def Inside (b : Builder) : Prop :=
  ∀ t ∈ b.seen, t.kind ≠ .ending

/-- A reading does not come behind the end of its tokens. -/
theorem Step.inside (h : Step b ts b' ts') (hb : b.Inside) : b'.Inside := by
  obtain ⟨taken, -, -, htaken, hseen⟩ := h.exists_taken
  intro t ht
  rw [hseen, List.mem_append, List.mem_reverse, List.mem_append] at ht
  rcases ht with (ht | ht) | ht
  · exact htaken t ht
  · unfold putIn at ht
    split at ht
    · split at ht
      · rw [List.mem_singleton.1 ht]
        exact Token.Kind.noConfusion
      · cases ht
    · cases ht
  · exact hb t ht

/-- A reading ends at the first token that ends tokens, or behind all of them. -/
theorem findIdx_finish (hb : b.Inside) (hts : AtEnd ts) (pos : Position) :
    (b.finish pos ts).tokens.findIdx (·.kind == .ending) = (b.finish pos ts).index := by
  have hseen : ¬∃ t ∈ b.seen.reverse, (t.kind == .ending) = true := by
    rintro ⟨t, ht, hkind⟩
    exact hb t (List.mem_reverse.1 ht) (beq_iff_eq.1 hkind)
  have hhead : ts.findIdx (·.kind == .ending) = 0 := by
    cases ts with
    | nil => rfl
    | cons t r => simp [List.findIdx_cons, hts t rfl]
  rw [finish, List.findIdx_append, if_neg ?_, hhead, Nat.zero_add, List.length_reverse]
  rwa [List.findIdx_lt_length]

end Builder

/-- A reading has ended after at most two turns for each token, when no further turn can be made. If
it gives a tree, it has then come to the first token that ends the source, or to the end of the
tokens. -/
theorem Reading.ends_after_turns (tokens : List Token) (file : Option String) :
    (∀ n b ts, Builder.Turns n (.start file) tokens b ts → n ≤ 2 * tokens.length ∧
      ((∃ b' ts', Builder.Turn b ts b' ts') ∨ Builder.Ends b ts (ofTokens tokens file))) ∧
    ∀ tree, (ofTokens tokens file).result = .ok tree →
      (ofTokens tokens file).index = (ofTokens tokens file).tokens.findIdx (·.kind == .ending) := by
  constructor
  · intro n b ts h
    refine ⟨h.le, ?_⟩
    rw [ofTokens, h.run_eq]
    exact b.exists_turn_or_ends ts
  · intro tree hok
    obtain ⟨b, ts, pos, hinside, hend, hrun⟩ := Builder.run_invariant Builder.Step.inside
      (Builder.start file) tokens (List.forall_mem_nil _) hok
    rw [ofTokens, hrun]
    exact (Builder.findIdx_finish hinside hend pos).symm

end PixelUnit.Sheet
