import Mathlib.Data.List.Pairwise

/-!
# Extents

An extent is a part of a text, given by the number of characters before its start and before its
end. The parts that a text is cut into have extents, one behind the other, and `placed` lists
parts with theirs. Two parts that share a character are the same, which is
`eq_of_mem_placed_of_meets`.
-/

namespace PixelUnit.Text

/-- A part of a text: the number of characters before its start, and before its end. -/
structure Extent where
  start : Nat
  stop : Nat
deriving DecidableEq

namespace Extent

/-- Whether two extents share a character. -/
def Meets (a b : Extent) : Prop :=
  a.start < b.stop ∧ b.start < a.stop

instance (a b : Extent) : Decidable (a.Meets b) :=
  inferInstanceAs (Decidable (_ ∧ _))

/-- Whether one extent lies in another. -/
def Within (a b : Extent) : Prop :=
  b.start ≤ a.start ∧ a.stop ≤ b.stop

instance (a b : Extent) : Decidable (a.Within b) :=
  inferInstanceAs (Decidable (_ ∧ _))

theorem Meets.symm {a b : Extent} (h : a.Meets b) : b.Meets a := ⟨h.2, h.1⟩

theorem Meets.of_within {a b c : Extent} (h : a.Meets c) (hab : a.Within b) : b.Meets c :=
  ⟨Nat.lt_of_le_of_lt hab.1 h.1, Nat.lt_of_lt_of_le h.2 hab.2⟩

theorem Within.meets {a b : Extent} (h : a.Within b) (hne : a.start < a.stop) : a.Meets b :=
  ⟨Nat.lt_of_lt_of_le hne h.2, Nat.lt_of_le_of_lt h.1 hne⟩

/-- Whether a text holds `cs` at an extent. -/
def Holds (e : Extent) (text cs : List Char) : Prop :=
  ∃ before behind, text = before ++ cs ++ behind ∧ e = ⟨before.length, before.length + cs.length⟩

end Extent

variable {α : Type} (textOf : α → List Char)

/-- The parts of a text that starts behind `i` characters, with their extents. -/
def placed : Nat → List α → List (α × Extent)
  | _, [] => []
  | i, x :: xs => (x, ⟨i, i + (textOf x).length⟩) :: placed (i + (textOf x).length) xs

variable {textOf}

/-- What is placed behind a number starts there or later. -/
theorem le_start_of_mem_placed {i : Nat} {xs : List α} {y : α × Extent}
    (h : y ∈ placed textOf i xs) : i ≤ y.2.start := by
  induction xs generalizing i with
  | nil => simp [placed] at h
  | cons x xs ih =>
    rcases List.mem_cons.1 h with rfl | h
    · exact Nat.le_refl i
    · have := ih h
      omega

/-- A part that is placed, with what stands before and behind it. -/
theorem mem_placed_iff {i : Nat} {xs : List α} {x : α} {e : Extent} :
    (x, e) ∈ placed textOf i xs ↔ ∃ pre post, xs = pre ++ x :: post ∧
      e = ⟨i + (pre.flatMap textOf).length,
        i + (pre.flatMap textOf).length + (textOf x).length⟩ := by
  induction xs generalizing i with
  | nil => simp [placed]
  | cons y ys ih =>
    rw [placed, List.mem_cons, ih]
    constructor
    · rintro (h | ⟨pre, post, rfl, rfl⟩)
      · obtain ⟨rfl, rfl⟩ := Prod.mk.inj h
        exact ⟨[], ys, rfl, by simp⟩
      · exact ⟨y :: pre, post, rfl, by simp [Nat.add_assoc]⟩
    · rintro ⟨pre, post, h, rfl⟩
      cases pre with
      | nil =>
        obtain ⟨rfl, rfl⟩ := List.cons.inj h
        exact Or.inl (by simp)
      | cons z pre =>
        obtain ⟨rfl, rfl⟩ := List.cons.inj h
        exact Or.inr ⟨pre, post, rfl, by simp [Nat.add_assoc]⟩

theorem mem_of_mem_placed {i : Nat} {xs : List α} {y : α × Extent} (h : y ∈ placed textOf i xs) :
    y.1 ∈ xs := by
  obtain ⟨pre, post, rfl, -⟩ := mem_placed_iff.1 h
  simp

/-- What is placed later starts behind what is placed earlier. -/
theorem placed_pairwise (i : Nat) (xs : List α) :
    (placed textOf i xs).Pairwise fun a b => a.2.stop ≤ b.2.start := by
  induction xs generalizing i with
  | nil => exact List.Pairwise.nil
  | cons x xs ih => exact List.Pairwise.cons (fun _ h => le_start_of_mem_placed h) (ih _)

/-- Parts that share a character are the same. -/
theorem eq_of_mem_placed_of_meets {i : Nat} {xs : List α} {a b : α × Extent}
    (ha : a ∈ placed textOf i xs) (hb : b ∈ placed textOf i xs) (h : a.2.Meets b.2) : a = b := by
  by_contra hne
  have : Std.Symm fun a b : α × Extent => ¬a.2.Meets b.2 := ⟨fun _ _ hn hm => hn hm.symm⟩
  have hapart : (placed textOf i xs).Pairwise fun a b => ¬a.2.Meets b.2 :=
    (placed_pairwise i xs).imp fun hle (hm : Extent.Meets _ _) => Nat.not_lt_of_le hle hm.2
  exact hapart.forall ha hb hne h

end PixelUnit.Text
