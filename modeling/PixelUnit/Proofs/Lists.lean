import Mathlib.Data.List.Forall2

/-!
# Lists related member by member

Where a member of one list stands, there stands a related member of the other.
-/

namespace PixelUnit

variable {α β : Type} {R : α → β → Prop}

/-- A list with a given member is related to lists with a member for that one in the same place. -/
theorem forall₂_middle_iff {a a' : List α} {v : α} {b : List β} :
    List.Forall₂ R (a ++ v :: a') b ↔
      ∃ c x c', List.Forall₂ R a c ∧ R v x ∧ List.Forall₂ R a' c' ∧ b = c ++ x :: c' := by
  constructor
  · intro h
    induction a generalizing b with
    | nil =>
      obtain ⟨x, c', hx, hc', rfl⟩ := List.forall₂_cons_left_iff.1 h
      exact ⟨[], x, c', .nil, hx, hc', rfl⟩
    | cons u a ih =>
      obtain ⟨y, b, hy, hb, rfl⟩ := List.forall₂_cons_left_iff.1 h
      obtain ⟨c, x, c', hc, hx, hc', rfl⟩ := ih hb
      exact ⟨y :: c, x, c', .cons hy hc, hx, hc', rfl⟩
  · rintro ⟨c, x, c', hc, hx, hc', rfl⟩
    exact List.rel_append hc (.cons hx hc')

/-- Every member of a list that is related to another, item by item, is related to a member of that
one. -/
theorem exists_mem_of_forall₂ {as : List α} {bs : List β} (h : List.Forall₂ R as bs) {a : α}
    (ha : a ∈ as) : ∃ b ∈ bs, R a b := by
  obtain ⟨before, behind, rfl⟩ := List.append_of_mem ha
  obtain ⟨c, b, c', -, hb, -, rfl⟩ := forall₂_middle_iff.1 h
  exact ⟨b, List.mem_append_right c List.mem_cons_self, hb⟩

/-- All items of a list have images if there is a list of images of the same length. -/
theorem mapM_eq_some_iff {f : α → Option β} {as : List α} {bs : List β} :
    as.mapM f = some bs ↔ List.Forall₂ (fun a b => f a = some b) as bs := by
  induction as generalizing bs with
  | nil => simp [eq_comm]
  | cons a as ih =>
    rw [List.forall₂_cons_left_iff, List.mapM_cons]
    simp only [Option.bind_eq_bind, Option.bind_eq_some_iff, Option.pure_def, Option.some.injEq, ih]
    constructor
    · rintro ⟨b, hb, bs', hbs, rfl⟩
      exact ⟨b, bs', hb, hbs, rfl⟩
    · rintro ⟨b, bs', hb, hbs, rfl⟩
      exact ⟨b, hb, bs', hbs, rfl⟩

theorem mapM_eq_some_map {f : α → Option β} {g : α → β} {as : List α}
    (h : ∀ a ∈ as, f a = some (g a)) : as.mapM f = some (as.map g) := by
  rw [mapM_eq_some_iff, List.forall₂_map_right_iff, List.forall₂_same]
  exact h

theorem mapM_congr {f g : α → Option β} {as : List α} (h : ∀ a ∈ as, f a = g a) :
    as.mapM f = as.mapM g := by
  induction as with
  | nil => rfl
  | cons a as ih =>
    obtain ⟨ha, has⟩ := List.forall_mem_cons.1 h
    rw [List.mapM_cons, List.mapM_cons, ha, ih has]

end PixelUnit
