import Mathlib.Data.List.TakeWhile

/-!
# Runs

A run is the longest front of a list whose members satisfy `p`. What stands behind it does not go
on with one of them, and that is all it takes to find it again.
-/

namespace PixelUnit.Text

variable {α : Type} {p : α → Bool}

/-- What stands behind a run does not go on with a member that satisfies `p`. -/
theorem eq_false_of_mem_head?_dropWhile {xs : List α} {x : α}
    (h : x ∈ (xs.dropWhile p).head?) : p x = false := by
  have hn := List.head?_dropWhile_not p xs
  rw [Option.mem_def.1 h] at hn
  simpa using hn

theorem takeWhile_run {run r : List α} (hrun : ∀ x ∈ run, p x = true)
    (hr : ∀ x ∈ r.head?, p x = false) : (run ++ r).takeWhile p = run := by
  rw [List.takeWhile_append_of_pos hrun]
  cases r with
  | nil => simp
  | cons x r => simp [hr x rfl]

theorem dropWhile_run {run r : List α} (hrun : ∀ x ∈ run, p x = true)
    (hr : ∀ x ∈ r.head?, p x = false) : (run ++ r).dropWhile p = r := by
  rw [List.dropWhile_append_of_pos hrun]
  cases r with
  | nil => rfl
  | cons x r => simp [hr x rfl]

end PixelUnit.Text
