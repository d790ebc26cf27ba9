/-!
# Tables

Lists of keys with values, in the order in which the keys first came. `Table.lookup_put` says what
is found under a key after a value has been put there.
-/

namespace PixelUnit.Table

variable {κ α : Type} [BEq κ]

/-- A table in which `key` has a value: in its old place if it had one, at the end otherwise. -/
def put (key : κ) (value : α) : List (κ × α) → List (κ × α)
  | [] => [(key, value)]
  | (k, v) :: es => if k == key then (k, value) :: es else (k, v) :: put key value es

/-- A value that is put is found under its key, and nothing changes under other keys. -/
theorem lookup_put [LawfulBEq κ] (key k : κ) (value : α) (es : List (κ × α)) :
    (put key value es).lookup k = if k == key then some value else es.lookup k := by
  induction es with
  | nil =>
    rw [put, List.lookup_cons]
    split <;> simp_all
  | cons e es ih =>
    obtain ⟨l, v⟩ := e
    rw [put]
    by_cases hk : k = l
    · by_cases hl : l = key <;> simp [hk, hl]
    · have hkl : (k == l) = false := beq_eq_false_iff_ne.2 hk
      by_cases hl : l = key
      · subst hl
        simp [List.lookup_cons, hkl]
      · simp [List.lookup_cons, hl, hkl, ih]

/-- Putting a value under a key that has one keeps the keys. -/
theorem map_fst_put [LawfulBEq κ] {key : κ} {old : α} {es : List (κ × α)}
    (h : es.lookup key = some old) (value : α) :
    (put key value es).map Prod.fst = es.map Prod.fst := by
  induction es with
  | nil => cases h
  | cons e es ih =>
    obtain ⟨k, v⟩ := e
    rw [put]
    by_cases hk : k = key
    · simp [hk]
    · rw [List.lookup_cons, beq_eq_false_iff_ne.2 (Ne.symm hk)] at h
      rw [if_neg (by simpa using hk), List.map_cons, List.map_cons, ih h]

theorem mem_of_mem_put [LawfulBEq κ] {key : κ} {value : α} {e : κ × α} {es : List (κ × α)}
    (h : e ∈ put key value es) : e = (key, value) ∨ e ∈ es := by
  induction es with
  | nil => exact .inl (List.mem_singleton.1 h)
  | cons d es ih =>
    obtain ⟨k, v⟩ := d
    rw [put] at h
    split at h
    · next hk =>
      obtain rfl : k = key := by simpa using hk
      exact (List.mem_cons.1 h).imp_right (List.mem_cons_of_mem _)
    · rcases List.mem_cons.1 h with rfl | h
      · exact .inr List.mem_cons_self
      · exact (ih h).imp_right (List.mem_cons_of_mem _)

/-- A value that is put back. -/
theorem put_put [LawfulBEq κ] {key : κ} {old : α} {es : List (κ × α)}
    (h : es.lookup key = some old) (value : α) : put key old (put key value es) = es := by
  induction es with
  | nil => cases h
  | cons e es ih =>
    obtain ⟨k, v⟩ := e
    rw [List.lookup_cons] at h
    rw [put]
    by_cases hk : k = key
    · subst hk
      rw [beq_self_eq_true] at h
      cases h
      simp [put]
    · rw [beq_eq_false_iff_ne.2 (Ne.symm hk)] at h
      rw [if_neg (by simpa using hk), put, if_neg (by simpa using hk), ih h]

end PixelUnit.Table
