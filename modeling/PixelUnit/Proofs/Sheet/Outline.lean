import PixelUnit.Proofs.Sheet.Brackets
import PixelUnit.Proofs.Sheet.Positions
import PixelUnit.Proofs.Sheet.RoundTrip

/-!
# Which sheets are read

Whether a sheet is read, and what is wrong with it otherwise, depends on the classes of its tokens
only, and little of what a reading keeps is needed to tell: the number of the blocks that are open
(`Outline.run`). No frames are stacked, and semicolons that end nothing are passed like white
space.

A reading and this machine agree at every token at which a node starts (`Builder.Step.outline_eq`),
so they end in the same way (`Builder.outcome_run`, `SourceReading.outcome_ofSource`).
-/

namespace PixelUnit.Sheet

/-! ## The machine -/

/-- How reading ends: with some blocks without an end, or at the first fault that is fatal. -/
inductive Outcome where
  | accepted (unclosed : Nat)
  | rejected (cause : Fault.Cause)
deriving DecidableEq

namespace Outline

/-- The closing brackets awaited behind a token. Opening brackets await their other half, and only
the half awaited last closes anything. -/
def nest (awaited : List Token.Kind) (k : Token.Kind) : List Token.Kind :=
  if awaited.head? = some k then awaited.tail
  else if k = .openSquare then .closeSquare :: awaited
  else if k = .openParen then .closeParen :: awaited
  else awaited

/-- The tokens up to the first brace or semicolon outside brackets, and those from there on. -/
def cut (awaited : List Token.Kind) : List Token.Kind → List Token.Kind × List Token.Kind
  | [] => ([], [])
  | k :: ks =>
    if awaited = [] ∧ k.stops then ([], k :: ks)
    else (k :: (cut (nest awaited k) ks).1, (cut (nest awaited k) ks).2)

/-- How many blocks are open behind what ends a statement, and the tokens there. An opening brace
opens a block, a semicolon is passed, and a closing brace is left. -/
def resume (opened : Nat) : List Token.Kind → Nat × List Token.Kind
  | .openBrace :: ks => (opened + 1, ks)
  | .semicolon :: ks => (opened, ks)
  | ks => (opened, ks)

/-- Tokens make up a declaration: there is a colon, and not in front. -/
def Declares (ks : List Token.Kind) : Prop :=
  ks.head? ≠ some .colon ∧ .colon ∈ ks

instance (ks : List Token.Kind) : Decidable (Declares ks) :=
  inferInstanceAs (Decidable (_ ∧ _))

theorem length_cut_le (awaited ks : List Token.Kind) : (cut awaited ks).2.length ≤ ks.length := by
  fun_induction cut awaited ks with
  | case1 => exact Nat.le_refl _
  | case2 => exact Nat.le_refl _
  | case3 awaited k ks _ ih => exact Nat.le_succ_of_le ih

theorem length_resume_le (opened : Nat) (ks : List Token.Kind) :
    (resume opened ks).2.length ≤ ks.length := by
  unfold resume
  split <;> simp

/-- A statement takes its first token, unless that closes a block. -/
theorem length_resume_cut_lt (opened : Nat) {k : Token.Kind} (hk : k ≠ .closeBrace)
    (ks : List Token.Kind) :
    (resume opened (cut [] (k :: ks)).2).2.length < (k :: ks).length := by
  by_cases hstop : k.stops = true
  · have hcut : cut [] (k :: ks) = ([], k :: ks) := if_pos ⟨rfl, hstop⟩
    have hkind : k = .openBrace ∨ k = .semicolon := by
      simpa [Token.Kind.stops, hk] using hstop
    rw [hcut]
    rcases hkind with rfl | rfl <;> exact Nat.lt_succ_self _
  · have hcut : (cut [] (k :: ks)).2 = (cut (nest [] k) ks).2 := by
      rw [cut, if_neg fun h => hstop h.2]
    rw [hcut]
    exact Nat.lt_succ_of_le ((length_resume_le _ _).trans (length_cut_le _ _))

/-- Passes tokens with a count of the open blocks. At a statement boundary white space, semicolons
and comments are passed; a closing brace closes a block; an at-keyword starts a statement of any
form, and everything else one that opens a block or is a declaration. -/
def run (opened : Nat) : List Token.Kind → Outcome
  | [] => .accepted opened
  | k :: ks =>
    if k = .spacing ∨ k = .semicolon ∨ k = .comment then run opened ks
    else if _ : k = .closeBrace then
      if opened = 0 then .rejected .unexpectedClose else run (opened - 1) ks
    else if k = .atKeyword then
      run (resume opened (cut [] ks).2).1 (resume opened (cut [] ks).2).2
    else if (cut [] (k :: ks)).2.head? = some .openBrace ∨ Declares (cut [] (k :: ks)).1 then
      run (resume opened (cut [] (k :: ks)).2).1 (resume opened (cut [] (k :: ks)).2).2
    else .rejected .unknownWord
termination_by ks => ks.length
decreasing_by
  · exact Nat.lt_succ_self _
  · exact Nat.lt_succ_self _
  · exact Nat.lt_succ_of_le ((length_resume_le _ _).trans (length_cut_le _ _))
  · exact length_resume_cut_lt _ ‹_› _

/-! What the machine does at the token in front. -/

section Run

variable {opened : Nat} {k : Token.Kind} {ks : List Token.Kind}

theorem run_nil : run opened [] = .accepted opened := by
  rw [run]

theorem run_of_passed (hk : k = .spacing ∨ k = .semicolon ∨ k = .comment) :
    run opened (k :: ks) = run opened ks := by
  rw [run, if_pos hk]

theorem run_of_closeBrace : run opened (.closeBrace :: ks) =
    if opened = 0 then .rejected .unexpectedClose else run (opened - 1) ks := by
  rw [run, if_neg (by decide), dif_pos rfl]

theorem run_of_atKeyword : run opened (.atKeyword :: ks) =
    run (resume opened (cut [] ks).2).1 (resume opened (cut [] ks).2).2 := by
  rw [run, if_neg (by decide), dif_neg (by decide), if_pos rfl]

theorem run_of_startsStatement (hk : k.StartsStatement) : run opened (k :: ks) =
    if (cut [] (k :: ks)).2.head? = some .openBrace ∨ Declares (cut [] (k :: ks)).1 then
      run (resume opened (cut [] (k :: ks)).2).1 (resume opened (cut [] (k :: ks)).2).2
    else .rejected .unknownWord := by
  obtain ⟨-, hspacing, hsemicolon, hclose, hcomment, hat⟩ := hk
  rw [run, if_neg (by simp [hspacing, hsemicolon, hcomment]), dif_neg hclose, if_neg hat]

end Run

/-! ## What is awaited behind a token -/

/-- Only closing brackets are awaited behind a token. -/
theorem awaits_nest {awaited : List Token.Kind} (h : Prelude.Awaits awaited) (k : Token.Kind) :
    Prelude.Awaits (nest awaited k) := by
  unfold nest
  split
  · exact h.tail
  split
  · exact h.cons (Or.inr rfl)
  split
  · exact h.cons (Or.inl rfl)
  · exact h

/-- What is no bracket opens and closes none. -/
theorem nest_of_ne {awaited : List Token.Kind} (h : Prelude.Awaits awaited) {k : Token.Kind}
    (hk : k ≠ .closeParen ∧ k ≠ .closeSquare ∧ k ≠ .openParen ∧ k ≠ .openSquare) :
    nest awaited k = awaited := by
  have hhead : awaited.head? ≠ some k := fun hhead =>
    h.ne_head? hk.1 hk.2.1 (beq_iff_eq.2 hhead)
  rw [nest, if_neg hhead, if_neg hk.2.2.2, if_neg hk.2.2.1]

/-- The first token is passed unless it ends the statement, and then the others are passed with the
brackets that are open behind it. -/
theorem passes_cons_eq (awaited : List Token.Kind) (k : Token.Kind) (ks : List Token.Kind) :
    Prelude.passes awaited (k :: ks) =
      if awaited = [] ∧ k.stops then none else Prelude.passes (nest awaited k) ks := by
  rw [Prelude.passes, nest]
  simp only [beq_iff_eq, Bool.and_eq_true, List.isEmpty_iff]
  split
  · next hclosing =>
    rw [if_neg fun h => by rw [h.1] at hclosing; cases hclosing]
  split
  · next hsquare => rw [if_neg fun h => absurd h.2 (by rw [hsquare]; decide)]
  split
  · next hparen => rw [if_neg fun h => absurd h.2 (by rw [hparen]; decide)]
  · rfl

/-- Brackets on top of others are opened and closed as they are alone; a closing one that is not
awaited among them may close one below. -/
theorem exists_nest_append {a b : List Token.Kind} (hw : Prelude.Awaits (b ++ a))
    (k : Token.Kind) : ∃ below, nest (b ++ a) k = nest b k ++ below := by
  cases b with
  | cons x b =>
    refine ⟨a, ?_⟩
    rw [nest, nest, apply_ite (· ++ a), apply_ite (· ++ a), apply_ite (· ++ a)]
    rfl
  | nil =>
    rw [List.nil_append] at hw ⊢
    by_cases hclosing : a.head? = some k
    · refine ⟨a.tail, ?_⟩
      rw [nest, if_pos hclosing]
      rcases hw k (List.mem_of_mem_head? hclosing) with rfl | rfl <;> rfl
    · refine ⟨a, ?_⟩
      have hnil : ¬([] : List Token.Kind).head? = some k := Option.some_ne_none k ∘ Eq.symm
      rw [nest, if_neg hclosing, nest, if_neg hnil, apply_ite (· ++ a), apply_ite (· ++ a)]
      rfl

/-! ## Statements, cut and read -/

section Cut

variable {ts : List Token} (awaited : List Token.Kind)

/-- Cutting classes gives the classes of the statement that is read. -/
theorem cut_map_kind (hts : ∀ t ∈ ts, t.kind ≠ .ending) :
    cut awaited (ts.map Token.kind) =
      ((Prelude.read awaited ts).tokens.map Token.kind,
        ((Prelude.read awaited ts).stop.toList ++ (Prelude.read awaited ts).rest).map
          Token.kind) := by
  fun_induction Prelude.read awaited ts with
  | case1 => rfl
  | case2 awaited t r hend => exact absurd (beq_iff_eq.1 hend) (hts t List.mem_cons_self)
  -- The brackets decide first, each of them by its own case; only what is read with none open can
  -- end the statement.
  | case3 awaited t r _ hclosing ih =>
    have hne : awaited ≠ [] := by
      rintro rfl
      cases hclosing
    have hnest : nest awaited t.kind = awaited.tail := if_pos (beq_iff_eq.1 hclosing)
    rw [List.map_cons, cut, if_neg fun h => hne h.1, hnest, ih (List.forall_mem_cons.1 hts).2]
    rfl
  | case4 awaited t r _ hclosing hsquare ih =>
    have hkind := beq_iff_eq.1 hsquare
    have hnest : nest awaited t.kind = .closeSquare :: awaited := by
      rw [nest, if_neg fun h => hclosing (beq_iff_eq.2 h), if_pos hkind]
    rw [List.map_cons, cut, if_neg fun h => absurd h.2 (by rw [hkind]; decide), hnest,
      ih (List.forall_mem_cons.1 hts).2]
    rfl
  | case5 awaited t r _ hclosing hsquare hparen ih =>
    have hkind := beq_iff_eq.1 hparen
    have hnest : nest awaited t.kind = .closeParen :: awaited := by
      rw [nest, if_neg fun h => hclosing (beq_iff_eq.2 h), if_neg fun h => hsquare (beq_iff_eq.2 h),
        if_pos hkind]
    rw [List.map_cons, cut, if_neg fun h => absurd h.2 (by rw [hkind]; decide), hnest,
      ih (List.forall_mem_cons.1 hts).2]
    rfl
  -- What ends the statement is left on both sides.
  | case6 awaited t r _ _ _ _ hstop =>
    simp only [Bool.and_eq_true, List.isEmpty_iff, Bool.or_eq_true, beq_iff_eq] at hstop
    obtain ⟨rfl, hkind⟩ := hstop
    refine if_pos ⟨rfl, ?_⟩
    rcases hkind with hkind | hkind <;> rw [hkind] <;> rfl
  | case7 awaited t r _ _ _ _ _ hclose =>
    simp only [Bool.and_eq_true, List.isEmpty_iff, beq_iff_eq] at hclose
    exact if_pos ⟨hclose.1, by rw [hclose.2]; rfl⟩
  | case8 awaited t r _ hclosing hsquare hparen hstop hclose ih =>
    have hnest : nest awaited t.kind = awaited := by
      rw [nest, if_neg fun h => hclosing (beq_iff_eq.2 h), if_neg fun h => hsquare (beq_iff_eq.2 h),
        if_neg fun h => hparen (beq_iff_eq.2 h)]
    have hgoes : ¬(awaited = [] ∧ t.kind.stops = true) := by
      rintro ⟨rfl, h⟩
      simp_all [Token.Kind.stops]
    rw [List.map_cons, cut, if_neg hgoes, hnest, ih (List.forall_mem_cons.1 hts).2]
    rfl

/-- White space in front of a statement makes no difference to what ends it. -/
theorem cut_snd_of_spacing (ts : List Token) :
    (cut [] (ts.map Token.kind)).2 =
      (cut [] ((ts.dropWhile Token.isSpacing).map Token.kind)).2 := by
  induction ts with
  | nil => rfl
  | cons t ts ih =>
    by_cases ht : t.isSpacing = true
    · have hkind : t.kind = .spacing := by simpa [Token.isSpacing] using ht
      rw [List.dropWhile_cons_of_pos ht, ← ih, List.map_cons, hkind]
      rfl
    · rw [List.dropWhile_cons_of_neg ht]

/-- Only a statement that opens a block adds to the count. -/
theorem resume_map_kind (opened : Nat) (hts : ∀ t ∈ ts, t.kind ≠ .ending) :
    resume opened (((Prelude.read awaited ts).stop.toList ++ (Prelude.read awaited ts).rest).map
        Token.kind) =
      (opened + (Prelude.read awaited ts).opensBlock.toNat,
        (Prelude.read awaited ts).rest.map Token.kind) := by
  rcases Prelude.stop_cases awaited ts with ⟨u, hu, hkind⟩ | ⟨u, hu, hkind⟩ | ⟨hu, hrest⟩
  · simp [Prelude.opensBlock, hu, hkind, resume]
  · simp [Prelude.opensBlock, hu, hkind, resume]
  · cases hcons : (Prelude.read awaited ts).rest with
    | nil => simp [Prelude.opensBlock, hu, resume]
    | cons t r =>
      have ht : t ∈ ts := by
        rw [← Prelude.taken_append_rest awaited ts, hcons]
        simp
      have hkind : t.kind = .closeBrace :=
        (hrest t (by rw [hcons]; rfl)).resolve_right (hts t ht)
      simp [Prelude.opensBlock, hu, hkind, resume]

/-- The opening brace is in front of what is cut off exactly if the statement opens a block. -/
theorem head?_stop_map_kind :
    (((Prelude.read awaited ts).stop.toList ++ (Prelude.read awaited ts).rest).map
        Token.kind).head? = some .openBrace ↔ (Prelude.read awaited ts).opensBlock = true := by
  rcases Prelude.stop_cases awaited ts with ⟨u, hu, hkind⟩ | ⟨u, hu, hkind⟩ | ⟨hu, hrest⟩
  · simp [Prelude.opensBlock, hu, hkind]
  · simp [Prelude.opensBlock, hu, hkind]
  · cases hcons : (Prelude.read awaited ts).rest with
    | nil => simp [Prelude.opensBlock, hu]
    | cons t r =>
      have hkind := hrest t (by rw [hcons]; rfl)
      rcases hkind with hkind | hkind <;> simp [Prelude.opensBlock, hu, hkind]

end Cut

end Outline

/-! ## Declarations -/

/-- What is cut as a declaration declares something. -/
theorem DeclarationCut.declares {ts : List Token} (d : DeclarationCut ts) :
    Outline.Declares (ts.map Token.kind) := by
  obtain ⟨t, r, hprop⟩ := List.exists_cons_of_ne_nil d.prop_ne_nil
  have ht : t.kind ≠ .colon := d.noColon t (by simp [hprop])
  rw [d.tokens_eq]
  constructor
  · simpa [hprop] using ht
  · simp [d.colon_kind]

/-- Tokens that do not start with white space are a declaration if there is a colon behind the
first of them. -/
theorem not_declares_of_declarationOf {before : String} {ts : List Token}
    (hts : ∀ t, ts.head? = some t → t.kind ≠ .spacing) (h : declarationOf before ts = none) :
    ¬Outline.Declares (ts.map Token.kind) := by
  rintro ⟨hhead, hmem⟩
  obtain ⟨t, r, rfl⟩ := List.exists_cons_of_ne_nil (l := ts) (by rintro rfl; cases hmem)
  have hcolon : (t.kind != .colon) = true := by simpa using hhead
  unfold declarationOf at h
  rw [List.span_eq_takeWhile_dropWhile, List.takeWhile_cons, List.dropWhile_cons, if_pos hcolon,
    if_pos hcolon] at h
  dsimp only at h
  split at h
  · next hnil =>
    -- no colon behind the first token
    obtain ⟨u, hu, hkind⟩ := List.mem_map.1 hmem
    rcases List.mem_cons.1 hu with rfl | hu
    · simp [hkind] at hcolon
    · simpa [hkind] using List.dropWhile_eq_nil_iff.1 hnil u hu
  · split at h
    · next hempty =>
      -- the property is not empty, for its first token is no white space
      have hsplit := splitTrailing_append (t :: r.takeWhile (·.kind != .colon))
      rw [List.isEmpty_iff.1 hempty, List.nil_append] at hsplit
      have hspacing := splitTrailing_spacing (t :: r.takeWhile (·.kind != .colon)) t
        (by rw [hsplit]; exact List.mem_cons_self)
      exact hts t rfl (by simpa [Token.isSpacing] using hspacing)
    · cases h

/-! ## Readings -/

/-- How a reading ends. -/
def Reading.outcome (r : Reading) : Outcome :=
  match r.result with
  | .ok _ => .accepted (r.faults.countP (·.cause = .unclosedBlock))
  | .error e => .rejected e.cause

namespace Builder

variable {b b' : Builder} {ts ts' : List Token}

/-- No block is noted as unclosed before the end. -/
def Unended (b : Builder) : Prop :=
  ∀ f ∈ b.faults, f.cause ≠ .unclosedBlock

theorem Unended.note (h : b.Unended) (p : Prelude) : (b.note p.fault?).Unended := by
  intro f hf
  rcases List.mem_append.1 hf with hf | hf
  · exact h f hf
  · rw [Prelude.cause_of_fault? (Option.mem_toList.1 hf)]
    exact Fault.Cause.noConfusion

/-- A step notes no block as unclosed. -/
theorem Step.unended (hstep : Step b ts b' ts') (h : b.Unended) : b'.Unended := by
  cases hstep with
  | space | semicolon | close | comment => exact h
  | atBlock | atLine | rule | declaration => exact h.note _

/-- The machine goes on behind every step. -/
theorem Step.outline_eq (h : Step b ts b' ts') (hts : ∀ t ∈ ts, t.kind ≠ .ending) :
    Outline.run b.outer.length (ts.map Token.kind) =
      Outline.run b'.outer.length (ts'.map Token.kind) := by
  cases h with
  | space ht => exact Outline.run_of_passed (Or.inl ht)
  | semicolon ht => exact Outline.run_of_passed (Or.inr (Or.inl ht))
  | comment ht => exact Outline.run_of_passed (Or.inr (Or.inr ht))
  | close ht hb =>
    rw [List.map_cons, ht, Outline.run_of_closeBrace, hb, List.length_cons,
      if_neg (Nat.succ_ne_zero _)]
    rfl
  -- The white space behind an at-keyword belongs to no statement, and is passed first.
  | @atBlock t r gap p ht hgap hp hopen =>
    have hr : ∀ t ∈ r.dropWhile Token.isSpacing, t.kind ≠ .ending :=
      fun u hu => hts u (dropWhile_subset_cons t r hu)
    subst hp
    rw [List.map_cons, ht, Outline.run_of_atKeyword, Outline.cut_snd_of_spacing,
      Outline.cut_map_kind [] hr, Outline.resume_map_kind [] _ hr, hopen]
    rfl
  | @atLine t r gap p ht hgap hp hopen =>
    have hr : ∀ t ∈ r.dropWhile Token.isSpacing, t.kind ≠ .ending :=
      fun u hu => hts u (dropWhile_subset_cons t r hu)
    subst hp
    rw [List.map_cons, ht, Outline.run_of_atKeyword, Outline.cut_snd_of_spacing,
      Outline.cut_map_kind [] hr, Outline.resume_map_kind [] _ hr, hopen]
    rfl
  | @rule t r p ht hp hopen =>
    subst hp
    have hcut := Outline.cut_map_kind [] hts
    rw [List.map_cons] at hcut
    rw [List.map_cons, Outline.run_of_startsStatement ht, hcut,
      if_pos (Or.inl ((Outline.head?_stop_map_kind []).2 hopen)), Outline.resume_map_kind [] _ hts,
      hopen]
    rfl
  | @declaration t r p ht hp hopen d =>
    subst hp
    have hcut := Outline.cut_map_kind [] hts
    rw [List.map_cons] at hcut
    rw [List.map_cons, Outline.run_of_startsStatement ht, hcut, if_pos (Or.inr d.declares),
      Outline.resume_map_kind [] _ hts, hopen]
    rfl

theorem head?_tokens {t u : Token} {r : List Token}
    (h : (Prelude.read [] (t :: r)).tokens.head? = some u) : u = t := by
  obtain ⟨us, hus⟩ := List.head?_eq_some_iff.1 h
  have htaken := Prelude.taken_append_rest [] (t :: r)
  rw [Prelude.taken, hus] at htaken
  exact (List.cons.inj htaken).1

/-- The end of the source is the end for both, with as many blocks open. -/
theorem outcome_finish (h : b.Unended) (pos : Position) (rest : List Token) :
    (b.finish pos rest).outcome = Outline.run b.outer.length [] := by
  have hnoted : b.faults.countP (·.cause = .unclosedBlock) = 0 := by
    rw [List.countP_eq_zero]
    intro f hf
    simpa using h f hf
  rw [Outline.run_nil]
  simp [Reading.outcome, finish, hnoted, List.countP_replicate]

/-- The machine stops where a statement is neither a declaration nor opens a block. -/
theorem outline_of_addStatement {t : Token} {r : List Token} (ht : t.kind.StartsStatement)
    (hts : ∀ u ∈ t :: r, u.kind ≠ .ending)
    (h : b.addStatement (Prelude.read [] (t :: r)) = none) (opened : Nat) :
    Outline.run opened ((t :: r).map Token.kind) = .rejected .unknownWord := by
  have hcut := Outline.cut_map_kind [] hts
  rw [List.map_cons] at hcut
  unfold addStatement at h
  split at h
  · cases h
  next hopen =>
  rw [List.map_cons, Outline.run_of_startsStatement ht, hcut, if_neg]
  rintro (hhead | hdecl)
  · exact hopen ((Outline.head?_stop_map_kind []).1 hhead)
  · have hdecl' := Option.map_eq_none_iff.1 h
    exact not_declares_of_declarationOf (fun u hu => head?_tokens hu ▸ ht.2.1) hdecl' hdecl

/-- A reading ends as the machine does. -/
theorem outcome_run (b : Builder) (ts : List Token) (hts : ∀ t ∈ ts, t.kind ≠ .ending)
    (hb : b.Unended) :
    (b.run ts).outcome = Outline.run b.outer.length (ts.map Token.kind) := by
  -- behind every step the machine goes on as it did before
  obtain ⟨b', ts', ⟨hts', hb', heq⟩, hends⟩ := exists_ends
    (P := fun b' ts' => (∀ t ∈ ts', t.kind ≠ .ending) ∧ b'.Unended ∧
      Outline.run b.outer.length (ts.map Token.kind) =
        Outline.run b'.outer.length (ts'.map Token.kind))
    (fun hstep ⟨hts, hb, heq⟩ => ⟨fun t ht => hts t (hstep.suffix.subset ht), hstep.unended hb,
      heq.trans (hstep.outline_eq hts)⟩) b ts ⟨hts, hb, rfl⟩
  rw [heq]
  generalize b.run ts = reading at hends
  cases hends with
  | usedUp => exact outcome_finish hb' _ _
  | ending ht => exact absurd ht (hts' _ List.mem_cons_self)
  | brace ht houter =>
    rw [List.map_cons, ht, Outline.run_of_closeBrace, houter]
    rfl
  | statement ht hp hnone =>
    subst hp
    exact (outline_of_addStatement ht hts' hnone _).symm

end Builder

/-! ## Sources -/

/-- The faults that scanning notes: strings and urls that do not end as they should. -/
def Fault.Cause.Lexical (e : Fault.Cause) : Prop :=
  e = .unclosedString ∨ e = .brokenString ∨ e = .unclosedUrl

theorem Token.Kind.Breaks.lexical {k : Token.Kind} {e : Fault.Cause} (h : k.Breaks e) :
    e.Lexical := by
  cases k with
  | badString => exact h.elim Or.inl fun h => Or.inr (Or.inl h)
  | url => exact Or.inr (Or.inr h)
  | _ => exact h.elim

/-- Scanning notes no other faults. -/
theorem lexical_scanSource (source : String) :
    ∀ f ∈ (scanSource source).final.faults, f.cause.Lexical := by
  intro f hf
  obtain ⟨t, -, hbreaks, -⟩ := exists_token_of_fault hf
  exact hbreaks.lexical

/-- Scanning notes no block as unclosed. -/
theorem countP_scanSource (source : String) :
    (scanSource source).final.faults.countP (·.cause = .unclosedBlock) = 0 := by
  rw [List.countP_eq_zero]
  intro f hf hcause
  have hlexical := lexical_scanSource source f hf
  rw [of_decide_eq_true hcause] at hlexical
  simp [Fault.Cause.Lexical] at hlexical

/-- How scanning and reading end. -/
def SourceReading.outcome (s : SourceReading) : Outcome :=
  match s.tree with
  | .ok _ => .accepted (s.faults.countP (·.cause = .unclosedBlock))
  | .error e => .rejected e.cause

/-- A source without a comment that has no end is read exactly if the machine accepts the classes of
its tokens, it is rejected for the same cause otherwise, and as many blocks are noted to have no end
as the machine counts. -/
theorem SourceReading.outcome_ofSource {source : String} (file : Option String)
    (h : (scanSource source).failure = none) :
    (ofSource source file).outcome =
      Outline.run 0 ((scanSource source).tokens.map Token.kind) := by
  have hreads := reads_scanSource h
  have hrun := Builder.outcome_run (.start file) (scanSource source).tokens
    (fun t ht hkind => by simpa [hkind, Token.Kind.Marks] using hreads.marks ht)
    (List.forall_mem_nil _)
  rw [show (0 : Nat) = (Builder.start file).outer.length from rfl, ← hrun]
  simp only [outcome, tree, faults, ofSource, h, Except.bind, Reading.outcome, Reading.ofTokens,
    List.countP_append, countP_scanSource, Nat.zero_add]

/-- A sheet with a mismatch and a brace in brackets, an at-rule that ends with its block, and a
block without an end. -/
def openSheet : String :=
  "@a\x7bb[)\x7d]:c;;\x7b@d\x7d"

/-- This sheet is accepted with one block that has no end. -/
theorem outcome_openSheet : (scanSource openSheet).failure = none ∧
    (SourceReading.ofSource openSheet none).outcome = .accepted 1 := by
  have hscan : (scanSource openSheet).failure = none := by decide +kernel
  have hkinds : (scanSource openSheet).tokens.map Token.kind =
      [.atKeyword, .openBrace, .word, .openSquare, .closeParen, .closeBrace, .closeSquare, .colon,
        .word, .semicolon, .semicolon, .openBrace, .atKeyword, .closeBrace] := by
    decide +kernel
  refine ⟨hscan, ?_⟩
  rw [SourceReading.outcome_ofSource none hscan, hkinds]
  decide +kernel

end PixelUnit.Sheet
