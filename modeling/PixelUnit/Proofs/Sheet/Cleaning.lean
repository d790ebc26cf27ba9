import Mathlib.Data.Bool.AllAny
import Mathlib.Data.List.Infix
import PixelUnit.Proofs.Sheet.Statements

/-!
# What stays in a clean value

Cleaning a value takes away its comments, its mark of importance and the blanks around it. A stretch
of a value without comments that starts with no blank and ends in a closing parenthesis stays
(`infix_cleanValue`), since neither blanks nor the mark reach into it.
-/

namespace PixelUnit.Sheet

/-! ## Stretches of texts -/

section Stretches

variable {α : Type} {as bs zs : List α} {c : α}

/-- A stretch whose last member does not occur behind a cut lies before it. -/
theorem infix_of_append_right (h : zs ++ [c] <:+: as ++ bs) (hc : c ∉ bs) : zs ++ [c] <:+: as := by
  obtain ⟨xs, ys, h⟩ := h
  rcases List.append_eq_append_iff.1 h with ⟨ws, rfl, -⟩ | ⟨ws, hws, rfl⟩
  · exact ⟨xs, ws, rfl⟩
  · rcases ws.eq_nil_or_concat' with rfl | ⟨us, u, rfl⟩
    · exact ⟨xs, [], by simpa using hws⟩
    · obtain rfl : c = u := by
        have hlast := congrArg List.getLast? hws
        simpa [← List.append_assoc] using hlast
      exact absurd (List.mem_append_left _ (List.mem_append_right _ (List.mem_singleton_self c))) hc

/-- A stretch whose first member does not occur before a cut lies behind it. -/
theorem infix_of_append_left (h : c :: zs <:+: as ++ bs) (hc : c ∉ as) : c :: zs <:+: bs := by
  rw [← List.reverse_infix, List.reverse_append, List.reverse_cons] at h
  have hrev := infix_of_append_right h (by simpa using hc)
  rwa [← List.reverse_cons, List.reverse_infix] at hrev

end Stretches

variable {z cs : List Char} {c d : Char}

/-- Trimming keeps a part of a text that starts with no blank, but for what is before it. -/
theorem infix_trimStart (h : c :: z <:+: cs) (hc : Text.isBlank c = false) :
    c :: z <:+: Text.trimStart cs := by
  rw [← Text.trimStart_append cs] at h
  refine infix_of_append_left h fun hm => ?_
  rw [List.mem_takeWhile_imp hm] at hc
  cases hc

/-- Trimming keeps a part of a text that ends in no blank, but for what is behind it. -/
theorem infix_trimEnd (h : z ++ [d] <:+: cs) (hd : Text.isBlank d = false) :
    z ++ [d] <:+: Text.trimEnd cs := by
  rw [← Text.trimEnd_append cs] at h
  refine infix_of_append_right h fun hm => ?_
  rw [List.mem_takeWhile_imp (List.mem_reverse.1 hm)] at hd
  cases hd

theorem infix_trim (h : c :: z ++ [d] <:+: cs) (hc : Text.isBlank c = false)
    (hd : Text.isBlank d = false) : c :: z ++ [d] <:+: Text.trim cs :=
  infix_trimEnd (infix_trimStart h hc) hd

/-! ## The mark of importance -/

/-- What is taken as a word, in letters of either case, consists of letters of the word. -/
theorem exists_of_takeWordUpToCase {ws t u : List Char}
    (h : takeWordUpToCase ws cs = some (t, u)) :
    ∀ c ∈ t, ∃ w ∈ ws, Text.sameUpToCase w c = true := by
  fun_induction takeWordUpToCase ws cs generalizing t u with
  | case1 cs =>
    obtain ⟨rfl, -⟩ := Prod.mk.inj (Option.some.inj h)
    exact List.forall_mem_nil _
  | case2 => cases h
  | case3 w ws c cs hsame ih =>
    obtain ⟨⟨t', u'⟩, hs, he⟩ := Option.map_eq_some_iff.1 h
    obtain ⟨rfl, -⟩ := Prod.mk.inj he
    refine List.forall_mem_cons.2 ⟨⟨w, List.mem_cons_self, hsame⟩, fun d hd => ?_⟩
    obtain ⟨v, hv, hvd⟩ := ih hs d hd
    exact ⟨v, List.mem_cons_of_mem w hv, hvd⟩
  | case4 => cases h

/-- There is no closing parenthesis in a mark of importance. -/
theorem not_mem_mark {front mark : List Char} (h : splitImportant cs = some (front, mark)) :
    ')' ∉ mark := by
  have hblank : ∀ r : List Char, ')' ∉ r.takeWhile Text.isBlank := fun r hm =>
    absurd (List.mem_takeWhile_imp hm) (by decide +kernel)
  have hword : ∀ w ∈ importantWord.reverse, Text.sameUpToCase w ')' = false :=
    List.all_iff_forall_prop.1 (by decide +kernel)
  unfold splitImportant at h
  split at h
  · cases h
  · rename_i word r htake
    split at h
    · obtain ⟨-, rfl⟩ := Prod.mk.inj (Option.some.inj h)
      have hin : ')' ∉ word := fun hm => by
        obtain ⟨w, hw, hsame⟩ := exists_of_takeWordUpToCase htake ')' hm
        rw [hword w hw] at hsame
        cases hsame
      simp [hblank, hin]
    · cases h

/-- A part that ends in a parenthesis stays in front when a mark of importance is split off. -/
theorem infix_splitImportant {front mark : List Char} (h : z ++ [')'] <:+: cs)
    (hmark : splitImportant cs = some (front, mark)) : z ++ [')'] <:+: front := by
  refine infix_of_append_right ?_ (not_mem_mark hmark)
  rw [splitImportant_append hmark, dropLineFeed]
  split
  · next hlast =>
    obtain ⟨ds, rfl⟩ := List.getLast?_eq_some_iff.1 (beq_iff_eq.1 hlast)
    rw [List.dropLast_concat]
    exact infix_of_append_right h (by decide)
  · exact h

/-! ## Clean values -/

/-- A stretch of a value without comments stays when the value is cleaned. -/
theorem infix_cleanValue {ts : List Token} (hts : ∀ t ∈ ts, t.kind ≠ .comment)
    (hc : Text.isBlank c = false) (h : c :: z ++ [')'] <:+: (rawText ts).toList)
    (important : Bool) : c :: z ++ [')'] <:+: cleanValue ts important := by
  have hparen : Text.isBlank ')' = false := by decide +kernel
  have hfilter : ts.filter (·.kind != .comment) = ts :=
    List.filter_eq_self.2 fun t ht => by simpa using hts t ht
  rw [cleanValue, hfilter]
  cases important with
  | false => exact infix_trim h hc hparen
  | true =>
    have hend := infix_trimEnd h hparen
    dsimp only
    rw [if_pos rfl]
    split
    · next hmark => exact infix_trim (infix_splitImportant hend hmark) hc hparen
    · exact infix_trim hend hc hparen

end PixelUnit.Sheet
