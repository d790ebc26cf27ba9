import PixelUnit.Proofs.Sheet.Exchange
import PixelUnit.Proofs.Sheet.Outline

/-!
# Where the tokens of a sheet leave off

`Outline.run` takes a statement at a time and looks ahead to its end. The machine of this module
takes a token at a time and looks at nothing but that token (`Outline.Standing.step`); the two end
in the same way (`Outline.run_eq`). So what more tokens do to a sheet is up to where the sheet
leaves off. A closing brace behind it closes a block unless a bracket is open
(`Outline.Standing.step_closeBrace`), and a bracket is open exactly if one is noted as unclosed
(`SourceReading.unclosedBracket_iff`).
-/

namespace PixelUnit.Sheet

namespace Outline

/-! ## The machine that takes a token at a time -/

/-- What the tokens of a statement make of it so far. -/
inductive Form where
  | atRule
  /-- There are no tokens yet. -/
  | fresh
  /-- There is a colon in front. -/
  | colonFirst
  /-- There is no colon yet. -/
  | plain
  | declaration
deriving DecidableEq

namespace Form

/-- What one more token makes of a statement. -/
def next : Form → Token.Kind → Form
  | fresh, .colon => colonFirst
  | fresh, _ => plain
  | plain, .colon => declaration
  | form, _ => form

/-- What tokens make of a statement. -/
def after (form : Form) (ks : List Token.Kind) : Form :=
  ks.foldl next form

/-- A statement needs no block to be read. -/
def complete : Form → Bool
  | atRule | declaration => true
  | fresh | colonFirst | plain => false

theorem after_cons (form : Form) (k : Token.Kind) (ks : List Token.Kind) :
    form.after (k :: ks) = (form.next k).after ks := rfl

/-- Nothing but a colon counts, and only the first one. -/
theorem next_of_ne {form : Form} {k : Token.Kind} (hk : k ≠ .colon) :
    form.next k = if form = fresh then plain else form := by
  cases form <;> cases k <;> first | rfl | exact absurd rfl hk

/-- What a statement has turned out to be, it stays. -/
theorem after_of_ne {form : Form} (h : form ≠ fresh ∧ form ≠ plain) (ks : List Token.Kind) :
    form.after ks = form := by
  induction ks with
  | nil => rfl
  | cons k ks ih =>
    have hnext : form.next k = form := by
      cases form <;> first | rfl | exact absurd rfl h.1 | exact absurd rfl h.2
    rw [after_cons, hnext, ih]

/-- A plain statement is complete if it has a colon. -/
theorem complete_after_plain (ks : List Token.Kind) :
    (plain.after ks).complete = true ↔ .colon ∈ ks := by
  induction ks with
  | nil => simp [after, complete]
  | cons k ks ih =>
    rw [after_cons]
    by_cases hk : k = .colon
    · subst hk
      have hafter : declaration.after ks = declaration := after_of_ne (by decide) ks
      simp [next, hafter, complete]
    · rw [next_of_ne hk, if_neg (by decide), ih, List.mem_cons]
      exact (or_iff_right (Ne.symm hk)).symm

/-- Tokens make a declaration of a statement just if they are one. -/
theorem complete_after_fresh (ks : List Token.Kind) :
    (fresh.after ks).complete = true ↔ Declares ks := by
  unfold Declares
  cases ks with
  | nil => simp [after, complete]
  | cons k ks =>
    rw [after_cons]
    by_cases hk : k = .colon
    · subst hk
      have hafter : colonFirst.after ks = colonFirst := after_of_ne (by decide) ks
      simp [next, hafter, complete]
    · rw [next_of_ne hk, if_pos rfl, complete_after_plain]
      simp [hk, Ne.symm hk]

end Form

/-- Whether there is a statement that has begun, with the closing brackets awaited in it. -/
inductive Stage where
  | between
  | inside (form : Form) (awaited : List Token.Kind)
deriving DecidableEq

/-- How many blocks are open behind some tokens, and what has begun there. -/
structure Standing where
  opened : Nat
  stage : Stage
deriving DecidableEq

/-- Closes a block. -/
def close (opened : Nat) : Except Fault.Cause Standing :=
  if opened = 0 then .error .unexpectedClose else .ok ⟨opened - 1, .between⟩

/-- A token in a statement: it ends it, or belongs to it. A closing brace closes the block around
the statement as well. -/
def goOn (opened : Nat) (form : Form) (awaited : List Token.Kind) (k : Token.Kind) :
    Except Fault.Cause Standing :=
  if awaited = [] ∧ k.stops then
    if k = .openBrace then .ok ⟨opened + 1, .between⟩
    else if form.complete then
      if k = .closeBrace then close opened else .ok ⟨opened, .between⟩
    else .error .unknownWord
  else .ok ⟨opened, .inside (form.next k) (nest awaited k)⟩

namespace Standing

/-- Takes a token. -/
def step : Standing → Token.Kind → Except Fault.Cause Standing
  | ⟨opened, .inside form awaited⟩, k => goOn opened form awaited k
  | ⟨opened, .between⟩, k =>
    if k = .spacing ∨ k = .semicolon ∨ k = .comment then .ok ⟨opened, .between⟩
    else if k = .closeBrace then close opened
    else if k = .atKeyword then .ok ⟨opened, .inside .atRule []⟩
    else goOn opened .fresh [] k

/-- Takes tokens, one after the other. -/
def pass (s : Standing) : List Token.Kind → Except Fault.Cause Standing
  | [] => .ok s
  | k :: ks => (s.step k).bind (pass · ks)

/-- How a sheet ends that leaves off here. -/
def finish : Standing → Outcome
  | ⟨opened, .between⟩ => .accepted opened
  | ⟨opened, .inside form _⟩ => if form.complete then .accepted opened else .rejected .unknownWord

/-- How tokens end. -/
def outcome : Except Fault.Cause Standing → Outcome
  | .ok s => s.finish
  | .error cause => .rejected cause

@[simp] theorem pass_nil (s : Standing) : s.pass [] = .ok s := rfl

theorem pass_cons (s : Standing) (k : Token.Kind) (ks : List Token.Kind) :
    s.pass (k :: ks) = (s.step k).bind (pass · ks) := rfl

/-- Tokens are passed in one part and then in the other. -/
theorem pass_append (s : Standing) (ks ls : List Token.Kind) :
    s.pass (ks ++ ls) = (s.pass ks).bind (pass · ls) := by
  induction ks generalizing s with
  | nil => rfl
  | cons k ks ih =>
    rw [List.cons_append, pass_cons, pass_cons]
    cases s.step k with
    | error => rfl
    | ok s' => exact ih s'

end Standing

open Standing

/-- How tokens end in a statement of some form, which is cut from them. -/
def runInside (opened : Nat) (form : Form) (awaited ks : List Token.Kind) : Outcome :=
  if (cut awaited ks).2.head? = some .openBrace ∨ (form.after (cut awaited ks).1).complete then
    run (resume opened (cut awaited ks).2).1 (resume opened (cut awaited ks).2).2
  else .rejected .unknownWord

/-- Both machines end in the same way, between statements and inside one. -/
structure Agree (ks : List Token.Kind) : Prop where
  between (opened : Nat) : run opened ks = outcome (pass ⟨opened, .between⟩ ks)
  inside (opened : Nat) (form : Form) (awaited : List Token.Kind) :
    runInside opened form awaited ks = outcome (pass ⟨opened, .inside form awaited⟩ ks)

namespace Agree

variable {k : Token.Kind} {ks : List Token.Kind}

theorem nil : Agree [] where
  between _ := run_nil
  inside opened form awaited := by
    simp only [runInside, cut, resume, run_nil]
    simp [outcome, finish, Form.after]

/-- At a closing brace, both machines close a block. -/
theorem run_closeBrace (h : Agree ks) (opened : Nat) :
    run opened (.closeBrace :: ks) = outcome ((close opened).bind (pass · ks)) := by
  rw [run_of_closeBrace]
  unfold close
  split
  · rfl
  · exact h.between _

/-- Inside a statement, both machines take a token alike. -/
theorem runInside_cons (h : Agree ks) (opened : Nat) (form : Form) (awaited : List Token.Kind) :
    runInside opened form awaited (k :: ks) =
      outcome (pass ⟨opened, .inside form awaited⟩ (k :: ks)) := by
  rw [pass_cons, step, goOn, runInside, cut]
  by_cases hstops : awaited = [] ∧ k.stops = true
  · rw [if_pos hstops, if_pos hstops]
    have hkind : k = .openBrace ∨ k = .semicolon ∨ k = .closeBrace := by
      simpa [Token.Kind.stops, or_assoc] using hstops.2
    rcases hkind with rfl | rfl | rfl
    · simp [resume, h.between, Except.bind]
    · cases hform : form.complete <;>
        simp [resume, h.between, Except.bind, Form.after, hform, outcome]
    · cases hform : form.complete
      · simp [Form.after, hform, Except.bind, outcome]
      · simp [Form.after, hform, resume, h.run_closeBrace]
  · rw [if_neg hstops, if_neg hstops]
    exact h.inside opened (form.next k) (nest awaited k)

/-- Between statements, both machines take a token alike. -/
theorem run_cons (h : Agree ks) (opened : Nat) :
    run opened (k :: ks) = outcome (pass ⟨opened, .between⟩ (k :: ks)) := by
  rw [pass_cons, step]
  by_cases hpassed : k = .spacing ∨ k = .semicolon ∨ k = .comment
  · rw [if_pos hpassed, run_of_passed hpassed]
    exact h.between opened
  rw [if_neg hpassed]
  by_cases hbrace : k = .closeBrace
  · rw [if_pos hbrace, hbrace]
    exact h.run_closeBrace opened
  rw [if_neg hbrace]
  by_cases hat : k = .atKeyword
  · rw [if_pos hat, hat, run_of_atKeyword]
    refine (if_pos (Or.inr ?_)).symm.trans (h.inside opened .atRule [])
    rw [Form.after_of_ne (by decide)]
    rfl
  · rw [if_neg hat, run, if_neg hpassed, dif_neg hbrace, if_neg hat]
    simp only [← Form.complete_after_fresh]
    exact h.runInside_cons opened .fresh []

end Agree

/-- The machine that takes a token at a time ends as the one does that takes a statement at a
time. -/
theorem agree (ks : List Token.Kind) : Agree ks := by
  induction ks with
  | nil => exact .nil
  | cons k ks ih => exact ⟨ih.run_cons, ih.runInside_cons⟩

/-- The machine that cuts statements and the one that takes tokens one by one end alike. -/
theorem run_eq (opened : Nat) (ks : List Token.Kind) :
    run opened ks = outcome (pass ⟨opened, .between⟩ ks) :=
  (agree ks).between opened

/-! ## Open brackets -/

namespace Standing

/-- A bracket is open. -/
def Open (s : Standing) : Prop :=
  ∃ form awaited, s.stage = .inside form awaited ∧ awaited ≠ []

/-- Only closing brackets are awaited. -/
def Sound (s : Standing) : Prop :=
  ∀ form awaited, s.stage = .inside form awaited → Prelude.Awaits awaited

theorem sound_between (opened : Nat) : Sound ⟨opened, .between⟩ := nofun

theorem not_open_between (opened : Nat) : ¬Open ⟨opened, .between⟩ := by
  rintro ⟨form, awaited, h, -⟩
  cases h

theorem open_inside_iff {opened : Nat} {form : Form} {awaited : List Token.Kind} :
    Open ⟨opened, .inside form awaited⟩ ↔ awaited ≠ [] := by
  constructor
  · rintro ⟨form', awaited', h, hne⟩
    cases h
    exact hne
  · exact fun hne => ⟨form, awaited, rfl, hne⟩

end Standing

theorem close_eq_ok {opened : Nat} {s : Standing} (h : close opened = .ok s) :
    s.stage = .between := by
  unfold close at h
  split at h
  · cases h
  · cases h
    rfl

namespace Standing

/-- A sound standing stays sound in a statement. -/
theorem Sound.goOn {opened : Nat} {form : Form} {awaited : List Token.Kind} {k : Token.Kind}
    {s : Standing} (hawaited : Prelude.Awaits awaited)
    (h : Outline.goOn opened form awaited k = .ok s) : s.Sound := by
  unfold Outline.goOn at h
  split at h
  · split at h
    · cases h
      exact sound_between _
    split at h
    · split at h
      · intro form' awaited' hstage
        rw [close_eq_ok h] at hstage
        cases hstage
      · cases h
        exact sound_between _
    · cases h
  · cases h
    intro form' awaited' hstage
    cases hstage
    exact awaits_nest hawaited k

/-- A sound standing stays sound. -/
theorem Sound.step {s s' : Standing} (hs : s.Sound) {k : Token.Kind} (h : s.step k = .ok s') :
    s'.Sound := by
  obtain ⟨opened, stage⟩ := s
  cases stage with
  | inside form awaited => exact Sound.goOn (hs form awaited rfl) h
  | between =>
    rw [Standing.step] at h
    by_cases hpassed : k = .spacing ∨ k = .semicolon ∨ k = .comment
    · rw [if_pos hpassed] at h
      cases h
      exact sound_between _
    rw [if_neg hpassed] at h
    by_cases hbrace : k = .closeBrace
    · rw [if_pos hbrace] at h
      intro form' awaited' hstage
      rw [close_eq_ok h] at hstage
      cases hstage
    rw [if_neg hbrace] at h
    by_cases hat : k = .atKeyword
    · rw [if_pos hat] at h
      cases h
      intro form' awaited' hstage
      cases hstage
      exact Prelude.awaits_nil
    · rw [if_neg hat] at h
      exact Sound.goOn Prelude.awaits_nil h

/-- A sound standing stays sound whatever is passed. -/
theorem Sound.pass {s s' : Standing} (hs : s.Sound) {ks : List Token.Kind}
    (h : s.pass ks = .ok s') : s'.Sound := by
  induction ks generalizing s with
  | nil =>
    cases h
    exact hs
  | cons k ks ih =>
    rw [pass_cons] at h
    cases hk : s.step k with
    | error e =>
      rw [hk] at h
      cases h
    | ok s₁ =>
      rw [hk] at h
      exact ih (hs.step hk) h

/-- A closing brace behind a sheet that is read closes a block, unless a bracket is open. -/
theorem step_closeBrace {s : Standing} (hs : s.Sound) {n : Nat}
    (hfinish : s.finish = .accepted (n + 1)) :
    (¬s.Open → s.step .closeBrace = .ok ⟨n, .between⟩) ∧
      (s.Open → s.step .closeBrace = .ok s) := by
  obtain ⟨opened, stage⟩ := s
  cases stage with
  | between =>
    obtain rfl : opened = n + 1 := Outcome.accepted.inj hfinish
    exact ⟨fun _ => rfl, fun h => absurd h (not_open_between _)⟩
  | inside form awaited =>
    have hcomplete : form.complete = true := by
      by_contra h
      simp [finish, h] at hfinish
    have hopened : opened = n + 1 := by
      simpa [finish, hcomplete] using hfinish
    rw [open_inside_iff]
    refine ⟨fun hnil => ?_, fun hne => ?_⟩
    · rw [not_not.1 hnil, hopened]
      simp [step, Outline.goOn, Token.Kind.stops, hcomplete, close]
    · have hform : form.next .closeBrace = form := by
        cases form <;> first | rfl | cases hcomplete
      rw [step, Outline.goOn, if_neg fun h => hne h.1, hform,
        nest_of_ne (hs form awaited rfl) (by decide)]

end Standing

end Outline

/-! ## Brackets that are noted as unclosed -/

namespace Prelude

variable {awaited : List Token.Kind} {ts : List Token}

/-- A bracket that is not closed takes everything up to the end of the source. -/
theorem rest_of_unclosed (hts : ∀ t ∈ ts, t.kind ≠ .ending)
    (h : (read awaited ts).unclosed = true) :
    (read awaited ts).stop = none ∧ (read awaited ts).rest = [] := by
  fun_induction read awaited ts with
  | case1 => exact ⟨rfl, rfl⟩
  | case2 awaited t r hend => exact absurd (beq_iff_eq.1 hend) (hts t List.mem_cons_self)
  | case3 awaited t r _ _ ih => exact ih (List.forall_mem_cons.1 hts).2 h
  | case4 awaited t r _ _ _ ih => exact ih (List.forall_mem_cons.1 hts).2 h
  | case5 awaited t r _ _ _ _ ih => exact ih (List.forall_mem_cons.1 hts).2 h
  | case6 => cases h
  | case7 => cases h
  | case8 awaited t r _ _ _ _ _ _ ih => exact ih (List.forall_mem_cons.1 hts).2 h

/-- A statement notes a bracket exactly if one is not closed. -/
theorem fault?_eq_none_iff : (read [] ts).fault? = none ↔ (read [] ts).unclosed = false :=
  ⟨unclosed_eq_false, fun h => by rw [fault?, h]; rfl⟩

end Prelude

namespace Outline

open Standing

/-- Tokens that do not end a statement leave it where the brackets are that they leave open. -/
theorem pass_of_passes {opened : Nat} {form : Form} {awaited left ks : List Token.Kind}
    (h : Prelude.passes awaited ks = some left) :
    pass ⟨opened, .inside form awaited⟩ ks = .ok ⟨opened, .inside (form.after ks) left⟩ := by
  have hgoes {form : Form} {awaited : List Token.Kind} {k : Token.Kind} {ks : List Token.Kind}
      (hstops : ¬(awaited = [] ∧ k.stops = true)) :
      pass ⟨opened, .inside form awaited⟩ (k :: ks) =
        pass ⟨opened, .inside (form.next k) (nest awaited k)⟩ ks := by
    rw [pass_cons, Standing.step, goOn, if_neg hstops]
    rfl
  fun_induction Prelude.passes awaited ks generalizing form with
  | case1 awaited =>
    obtain rfl := Option.some.inj h
    rfl
  | case2 awaited k ks hhead ih =>
    have hne : awaited ≠ [] := by
      rintro rfl
      cases hhead
    rw [hgoes fun h => hne h.1, nest, if_pos (beq_iff_eq.1 hhead), ih h]
    rfl
  | case3 awaited k ks hhead hsquare ih =>
    rw [hgoes fun h => by simp [beq_iff_eq.1 hsquare, Token.Kind.stops] at h, nest,
      if_neg fun h => hhead (beq_iff_eq.2 h), if_pos (beq_iff_eq.1 hsquare), ih h]
    rfl
  | case4 awaited k ks hhead hsquare hparen ih =>
    rw [hgoes fun h => by simp [beq_iff_eq.1 hparen, Token.Kind.stops] at h, nest,
      if_neg fun h => hhead (beq_iff_eq.2 h), if_neg fun h => hsquare (beq_iff_eq.2 h),
      if_pos (beq_iff_eq.1 hparen), ih h]
    rfl
  | case5 => cases h
  | case6 awaited k ks hhead hsquare hparen hstops ih =>
    rw [hgoes fun h => hstops (by rw [h.1, h.2]; rfl), nest,
      if_neg fun h => hhead (beq_iff_eq.2 h), if_neg fun h => hsquare (beq_iff_eq.2 h),
      if_neg fun h => hparen (beq_iff_eq.2 h), ih h]
    rfl

/-- Tokens leave a bracket open. -/
def LeavesOpen (s : Standing) (ks : List Token.Kind) : Prop :=
  ∃ s', s.pass ks = .ok s' ∧ s'.Open

theorem leavesOpen_nil (opened : Nat) : ¬LeavesOpen ⟨opened, .between⟩ [] := by
  rintro ⟨s, h, hopen⟩
  cases h
  exact not_open_between opened hopen

theorem leavesOpen_cons {s s' : Standing} {k : Token.Kind} (h : s.step k = .ok s')
    (ks : List Token.Kind) : LeavesOpen s (k :: ks) ↔ LeavesOpen s' ks := by
  unfold LeavesOpen
  rw [pass_cons, h]
  rfl

theorem leavesOpen_append {s s' : Standing} {ks : List Token.Kind} (h : s.pass ks = .ok s')
    (ls : List Token.Kind) : LeavesOpen s (ks ++ ls) ↔ LeavesOpen s' ls := by
  unfold LeavesOpen
  rw [pass_append, h]
  rfl

/-- What is behind a statement with all brackets closed leaves open what it does by itself. -/
theorem leavesOpen_behind {ts : List Token} (hts : ∀ t ∈ ts, t.kind ≠ .ending) (opened : Nat)
    {form : Form} (h : (Prelude.read [] ts).opensBlock = true ∨ form.complete = true) :
    LeavesOpen ⟨opened, .inside form []⟩
        (((Prelude.read [] ts).stop.toList ++ (Prelude.read [] ts).rest).map Token.kind) ↔
      LeavesOpen ⟨opened + (Prelude.read [] ts).opensBlock.toNat, .between⟩
        ((Prelude.read [] ts).rest.map Token.kind) := by
  rcases Prelude.stop_cases [] ts with ⟨u, hu, hkind⟩ | ⟨u, hu, hkind⟩ | ⟨hu, hrest⟩
  · have hopens : (Prelude.read [] ts).opensBlock = true := by
      simp [Prelude.opensBlock, hu, hkind]
    rw [hu, hopens]
    exact leavesOpen_cons (by rw [hkind]; rfl) _
  · have hopens : (Prelude.read [] ts).opensBlock = false := by
      simp [Prelude.opensBlock, hu, hkind]
    have hstep : Standing.step ⟨opened, .inside form []⟩ u.kind = .ok ⟨opened, .between⟩ := by
      rw [hkind]
      simp [Standing.step, goOn, Token.Kind.stops, h.resolve_left (by simp [hopens])]
    rw [hu, hopens]
    exact leavesOpen_cons hstep _
  · have hopens : (Prelude.read [] ts).opensBlock = false := by
      simp [Prelude.opensBlock, hu]
    rw [hu, hopens]
    cases hcons : (Prelude.read [] ts).rest with
    | nil =>
      refine iff_of_false ?_ (leavesOpen_nil _)
      rintro ⟨s, hs, hopen⟩
      cases hs
      exact open_inside_iff.1 hopen rfl
    | cons t r =>
      have hmem : t ∈ ts := by
        rw [← Prelude.taken_append_rest [] ts, hcons]
        simp
      have hkind := (hrest t (by rw [hcons]; rfl)).resolve_right (hts t hmem)
      -- a closing brace is left, and closes the block around the statement just the same
      unfold LeavesOpen
      rw [Option.toList_none, List.nil_append, List.map_cons, hkind, pass_cons, pass_cons]
      simp [Standing.step, goOn, Token.Kind.stops, h.resolve_left (by simp [hopens])]

/-- A statement leaves a bracket open that it does not close, or what is behind it leaves one. -/
theorem leavesOpen_statement {ts : List Token} (hts : ∀ t ∈ ts, t.kind ≠ .ending) (opened : Nat)
    {form : Form} (h : (Prelude.read [] ts).opensBlock = true ∨
      (form.after ((Prelude.read [] ts).tokens.map Token.kind)).complete = true) :
    LeavesOpen ⟨opened, .inside form []⟩ (ts.map Token.kind) ↔
      (Prelude.read [] ts).unclosed = true ∨
        LeavesOpen ⟨opened + (Prelude.read [] ts).opensBlock.toNat, .between⟩
          ((Prelude.read [] ts).rest.map Token.kind) := by
  obtain ⟨left, hpasses, hclosed⟩ := Prelude.passes_tokens [] ts
  have hkinds : ts.map Token.kind = (Prelude.read [] ts).tokens.map Token.kind ++
      ((Prelude.read [] ts).stop.toList ++ (Prelude.read [] ts).rest).map Token.kind := by
    rw [← List.map_append, ← List.append_assoc]
    exact congrArg _ (Prelude.taken_append_rest [] ts).symm
  rw [hkinds, leavesOpen_append (pass_of_passes hpasses)]
  cases hunclosed : (Prelude.read [] ts).unclosed with
  | true =>
    obtain ⟨hstop, hrest⟩ := Prelude.rest_of_unclosed hts hunclosed
    have hleft : left ≠ [] := fun hnil => by simp [hclosed.2 hnil] at hunclosed
    rw [hstop, hrest]
    exact iff_of_true ⟨_, rfl, open_inside_iff.2 hleft⟩ (Or.inl rfl)
  | false =>
    obtain rfl := hclosed.1 hunclosed
    rw [or_iff_right Bool.false_ne_true]
    exact leavesOpen_behind hts opened h

/-- White space leaves no bracket open. -/
theorem leavesOpen_spacing {opened : Nat} (ts : List Token) :
    LeavesOpen ⟨opened, .inside .atRule []⟩ (ts.map Token.kind) ↔
      LeavesOpen ⟨opened, .inside .atRule []⟩ ((ts.dropWhile Token.isSpacing).map Token.kind) := by
  induction ts with
  | nil => exact Iff.rfl
  | cons t ts ih =>
    by_cases ht : t.isSpacing = true
    · have hkind : t.kind = .spacing := by simpa [Token.isSpacing] using ht
      rw [List.dropWhile_cons_of_pos ht, ← ih, List.map_cons, hkind]
      exact leavesOpen_cons rfl _
    · rw [List.dropWhile_cons_of_neg ht]

/-- A statement begins with its first token. -/
theorem step_of_startsStatement {k : Token.Kind} (hk : k.StartsStatement) (opened : Nat) :
    Standing.step ⟨opened, .between⟩ k = Standing.step ⟨opened, .inside .fresh []⟩ k := by
  obtain ⟨-, hspacing, hsemicolon, hclose, hcomment, hat⟩ := hk
  refine Eq.trans ?_ (rfl : goOn opened .fresh [] k = _)
  rw [Standing.step, if_neg (by simp [hspacing, hsemicolon, hcomment]), if_neg hclose, if_neg hat]

theorem leavesOpen_startsStatement {t : Token} {r : List Token} (ht : t.kind.StartsStatement)
    (hts : ∀ u ∈ t :: r, u.kind ≠ .ending) (opened : Nat)
    (h : (Prelude.read [] (t :: r)).opensBlock = true ∨
      Declares ((Prelude.read [] (t :: r)).tokens.map Token.kind)) :
    LeavesOpen ⟨opened, .between⟩ ((t :: r).map Token.kind) ↔
      (Prelude.read [] (t :: r)).unclosed = true ∨
        LeavesOpen ⟨opened + (Prelude.read [] (t :: r)).opensBlock.toNat, .between⟩
          ((Prelude.read [] (t :: r)).rest.map Token.kind) := by
  rw [← leavesOpen_statement hts opened (h.imp_right (Form.complete_after_fresh _).2),
    List.map_cons]
  unfold LeavesOpen
  rw [pass_cons, pass_cons, step_of_startsStatement ht]

/-- An at-rule is a statement behind its keyword and white space. -/
theorem leavesOpen_atKeyword {t : Token} {r : List Token} (ht : t.kind = .atKeyword)
    (hts : ∀ u ∈ t :: r, u.kind ≠ .ending) (opened : Nat) :
    LeavesOpen ⟨opened, .between⟩ ((t :: r).map Token.kind) ↔
      (Prelude.read [] (r.dropWhile Token.isSpacing)).unclosed = true ∨
        LeavesOpen ⟨opened +
            (Prelude.read [] (r.dropWhile Token.isSpacing)).opensBlock.toNat, .between⟩
          ((Prelude.read [] (r.dropWhile Token.isSpacing)).rest.map Token.kind) := by
  have hstep : Standing.step ⟨opened, .between⟩ t.kind = .ok ⟨opened, .inside .atRule []⟩ := by
    rw [ht]
    rfl
  have hr : ∀ u ∈ r.dropWhile Token.isSpacing, u.kind ≠ .ending :=
    fun u hu => hts u (Builder.dropWhile_subset_cons t r hu)
  rw [List.map_cons, leavesOpen_cons hstep, leavesOpen_spacing]
  refine leavesOpen_statement hr _ (Or.inr ?_)
  rw [Form.after_of_ne (by decide)]
  rfl

end Outline

namespace Builder

open Outline

variable {b b' : Builder} {ts ts' : List Token}

/-- A bracket is noted as unclosed. -/
def NotesBracket (faults : List Fault) : Prop :=
  ∃ f ∈ faults, f.cause = .unclosedBracket

/-- An unclosed bracket is noted for a statement that leaves one open. -/
theorem notesBracket_note (b : Builder) (ts : List Token) :
    NotesBracket (b.note (Prelude.read [] ts).fault?).faults ↔
      NotesBracket b.faults ∨ (Prelude.read [] ts).unclosed = true := by
  unfold NotesBracket note
  cases hfault : (Prelude.read [] ts).fault? with
  | none => simp [Prelude.fault?_eq_none_iff.1 hfault]
  | some f =>
    have hunclosed : (Prelude.read [] ts).unclosed = true := by
      by_contra h
      rw [Prelude.fault?_eq_none_iff.2 (Bool.eq_false_iff.2 h)] at hfault
      cases hfault
    simp [hunclosed, Prelude.cause_of_fault? hfault, or_and_right, exists_or]

/-- A bracket that is left open is noted in the step that reads its statement. -/
theorem Step.leavesOpen_iff (h : Step b ts b' ts') (hts : ∀ t ∈ ts, t.kind ≠ .ending) :
    (NotesBracket b.faults ∨ LeavesOpen ⟨b.outer.length, .between⟩ (ts.map Token.kind)) ↔
      (NotesBracket b'.faults ∨ LeavesOpen ⟨b'.outer.length, .between⟩ (ts'.map Token.kind)) := by
  -- what is noted with a statement is what the statement leaves open
  have hnoted {us : List Token} {opened : Nat}
      (h : LeavesOpen ⟨b.outer.length, .between⟩ (ts.map Token.kind) ↔
        (Prelude.read [] us).unclosed = true ∨
          LeavesOpen ⟨opened, .between⟩ (ts'.map Token.kind)) :
      (NotesBracket b.faults ∨ LeavesOpen ⟨b.outer.length, .between⟩ (ts.map Token.kind)) ↔
        (NotesBracket (b.note (Prelude.read [] us).fault?).faults ∨
          LeavesOpen ⟨opened, .between⟩ (ts'.map Token.kind)) := by
    rw [h, notesBracket_note, or_assoc]
  cases h with
  | space ht => exact or_congr_right (leavesOpen_cons (by rw [ht]; rfl) _)
  | semicolon ht => exact or_congr_right (leavesOpen_cons (by rw [ht]; rfl) _)
  | comment ht => exact or_congr_right (leavesOpen_cons (by rw [ht]; rfl) _)
  | close ht hb => exact or_congr_right (leavesOpen_cons (by rw [ht, hb]; rfl) _)
  | atBlock ht hgap hp hopen =>
    subst hp
    refine hnoted ((leavesOpen_atKeyword ht hts _).trans ?_)
    rw [hopen]
    rfl
  | atLine ht hgap hp hopen =>
    subst hp
    refine hnoted ((leavesOpen_atKeyword ht hts _).trans ?_)
    rw [hopen]
    rfl
  | rule ht hp hopen =>
    subst hp
    refine hnoted ((leavesOpen_startsStatement ht hts _ (Or.inl hopen)).trans ?_)
    rw [hopen]
    rfl
  | declaration ht hp hopen d =>
    subst hp
    refine hnoted ((leavesOpen_startsStatement ht hts _ (Or.inr d.declares)).trans ?_)
    rw [hopen]
    rfl

/-- A reading notes the brackets that are left open. -/
theorem notesBracket_run (b : Builder) (ts : List Token) (hts : ∀ t ∈ ts, t.kind ≠ .ending)
    {tree : Tree} (hok : (b.run ts).result = .ok tree) :
    NotesBracket (b.run ts).faults ↔
      NotesBracket b.faults ∨ LeavesOpen ⟨b.outer.length, .between⟩ (ts.map Token.kind) := by
  refine run_induction (P := fun b ts => (∀ t ∈ ts, t.kind ≠ .ending) →
    (NotesBracket (b.run ts).faults ↔
      NotesBracket b.faults ∨ LeavesOpen ⟨b.outer.length, .between⟩ (ts.map Token.kind)))
    ?_ ?_ b ts hok hts
  · intro b ts pos hend hrun hts
    obtain rfl := hend.eq_nil hts
    rw [hrun, List.map_nil, or_iff_left (leavesOpen_nil _)]
    simp [NotesBracket, finish, or_and_right, exists_or]
  · intro b ts b' ts' hstep ih hts
    rw [hstep.run_eq, ih fun t ht => hts t (hstep.suffix.subset ht), hstep.leavesOpen_iff hts]

end Builder

/-- A bracket is noted as unclosed in a sheet that is read exactly if its tokens leave one open. -/
theorem SourceReading.unclosedBracket_iff {source : String} {file : Option String} {tree : Tree}
    (h : (ofSource source file).tree = .ok tree) :
    (∃ f ∈ (ofSource source file).faults, f.cause = .unclosedBracket) ↔
      Outline.LeavesOpen ⟨0, .between⟩ ((scanSource source).tokens.map Token.kind) := by
  obtain ⟨hfailure, -, hresult, -⟩ := tokens_of_tree h
  have hscan : ¬Builder.NotesBracket (scanSource source).final.faults := by
    rintro ⟨f, hf, hcause⟩
    have hlexical := lexical_scanSource source f hf
    rw [hcause] at hlexical
    simp [Fault.Cause.Lexical] at hlexical
  have hread := Builder.notesBracket_run (.start file) (scanSource source).tokens
    (marked_tokens h).ne_ending hresult
  rw [or_iff_right (by rintro ⟨f, hf, -⟩; cases hf)] at hread
  refine Iff.trans ?_ hread
  have hfaults : (ofSource source file).faults = (scanSource source).final.faults ++
      ((Builder.start file).run (scanSource source).tokens).faults := by
    simp only [faults, ofSource, hfailure]
    rfl
  rw [hfaults]
  constructor
  · rintro ⟨f, hf, hcause⟩
    rcases List.mem_append.1 hf with hf | hf
    · exact absurd ⟨f, hf, hcause⟩ hscan
    · exact ⟨f, hf, hcause⟩
  · rintro ⟨f, hf, hcause⟩
    exact ⟨f, List.mem_append_right _ hf, hcause⟩

end PixelUnit.Sheet
