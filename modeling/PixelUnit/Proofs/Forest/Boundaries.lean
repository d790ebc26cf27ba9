import PixelUnit.Proofs.Forest.Moves

/-!
# Boundaries

An iteration divides the children of its container into those that it has passed and those that are
ahead: its cursor stands at the last one passed (`Iteration.Stands`). Children that are taken out or
put in shift the cursors behind them. `Slot.Carries` and `Forest.Carries` say what this is for: all
that is not itself taken out or put in stays on its side of every boundary, in its order.
-/

namespace PixelUnit

/-! ## Lists that differ in some nodes only -/

/-- A list of nodes is the same as another one but for nodes that were inserted in it and nodes that
were taken from it. -/
structure AgreeBut (inserted taken xs ys : List NodeId) : Prop where
  sublist : ∀ keep : NodeId → Bool, (∀ t ∈ inserted, keep t = false) →
    (ys.filter keep).Sublist (xs.filter keep)
  filter_eq : ∀ keep : NodeId → Bool, (∀ t ∈ taken, keep t = false) →
    ys.filter keep = xs.filter keep

namespace AgreeBut

variable {inserted inserted' taken taken' xs xs' ys ys' zs : List NodeId} {i : NodeId}

theorem refl (inserted taken xs : List NodeId) : AgreeBut inserted taken xs xs where
  sublist _ _ := List.Sublist.refl _
  filter_eq _ _ := rfl

theorem trans (hxy : AgreeBut inserted taken xs ys) (hyz : AgreeBut inserted taken ys zs) :
    AgreeBut inserted taken xs zs where
  sublist keep hkeep := (hyz.sublist keep hkeep).trans (hxy.sublist keep hkeep)
  filter_eq keep hkeep := (hyz.filter_eq keep hkeep).trans (hxy.filter_eq keep hkeep)

theorem mono (h : AgreeBut inserted taken xs ys) (hinserted : inserted ⊆ inserted')
    (htaken : taken ⊆ taken') : AgreeBut inserted' taken' xs ys where
  sublist keep hkeep := h.sublist keep fun t ht => hkeep t (hinserted ht)
  filter_eq keep hkeep := h.filter_eq keep fun t ht => hkeep t (htaken ht)

/-- Lists that agree in their parts agree. -/
theorem append (h : AgreeBut inserted taken xs ys) (h' : AgreeBut inserted taken xs' ys') :
    AgreeBut inserted taken (xs ++ xs') (ys ++ ys') where
  sublist keep hkeep := by
    rw [List.filter_append, List.filter_append]
    exact (h.sublist keep hkeep).append (h'.sublist keep hkeep)
  filter_eq keep hkeep := by
    rw [List.filter_append, List.filter_append, h.filter_eq keep hkeep, h'.filter_eq keep hkeep]

/-- A node taken out. -/
theorem of_eraseIdx {k : Nat} (h : xs[k]? = some i) : AgreeBut [] [i] xs (xs.eraseIdx k) where
  sublist keep _ := (List.eraseIdx_sublist xs k).filter keep
  filter_eq keep hkeep := by
    obtain ⟨hk, hi⟩ := List.getElem?_eq_some_iff.1 h
    have hdrop : xs.drop k = i :: xs.drop (k + 1) := by
      rw [List.drop_eq_getElem_cons hk, hi]
    conv_rhs => rw [← List.take_append_drop k xs, hdrop]
    rw [List.eraseIdx_eq_take_drop_succ, List.filter_append, List.filter_append,
      List.filter_cons_of_neg (by simp [hkeep i List.mem_cons_self])]

/-- Nodes put in somewhere. -/
theorem of_insert (new xs : List NodeId) (k : Nat) :
    AgreeBut new new xs (xs.take k ++ new ++ xs.drop k) := by
  have hfilter : ∀ keep : NodeId → Bool, (∀ t ∈ new, keep t = false) →
      (xs.take k ++ new ++ xs.drop k).filter keep = xs.filter keep := by
    intro keep hkeep
    have hnew : new.filter keep = [] := List.filter_eq_nil_iff.2 fun t ht => by simp [hkeep t ht]
    rw [List.filter_append, List.filter_append, hnew, List.append_nil, ← List.filter_append,
      List.take_append_drop]
  exact ⟨fun keep hkeep => hfilter keep hkeep ▸ List.Sublist.refl _, hfilter⟩

/-- What comes is inserted. -/
theorem not_mem (h : AgreeBut inserted taken xs ys) (hinserted : i ∉ inserted) (hxs : i ∉ xs) :
    i ∉ ys := by
  intro hys
  have hsub := h.sublist (· == i) fun t ht => by
    rw [beq_eq_false_iff_ne]
    rintro rfl
    exact hinserted ht
  have hmem := hsub.subset (List.mem_filter.2 ⟨hys, beq_self_eq_true i⟩)
  exact hxs (List.mem_filter.1 hmem).1

/-- What is not taken stays. -/
theorem count_eq (h : AgreeBut inserted taken xs ys) (htaken : i ∉ taken) :
    ys.count i = xs.count i := by
  rw [List.count_eq_length_filter, List.count_eq_length_filter, h.filter_eq (· == i)]
  intro t ht
  rw [beq_eq_false_iff_ne]
  rintro rfl
  exact htaken ht

theorem mem (h : AgreeBut inserted taken xs ys) (htaken : i ∉ taken) (hxs : i ∈ xs) : i ∈ ys := by
  rw [← List.count_pos_iff] at hxs ⊢
  rwa [h.count_eq htaken]

end AgreeBut

/-! ## One container -/

namespace Slot

variable {s t : Slot} {inserted taken : List NodeId} {key : Nat} {passed ahead : List NodeId}

/-- The cursor with a key stands at the last of the children that are passed. -/
structure Stands (s : Slot) (key : Nat) (passed ahead : List NodeId) : Prop where
  children_eq : s.children = passed ++ ahead
  cursor_eq : s.cursor? key = some ((passed.length : Int) - 1)

/-- The cursors of `t` are those of `s`, and what stands on either side of one of them is the same
but for nodes that were inserted or taken. -/
structure Carries (inserted taken : List NodeId) (s t : Slot) : Prop where
  keys_eq : t.cursors.map Cursor.key = s.cursors.map Cursor.key
  lastKey_eq : t.lastKey = s.lastKey
  stands : ∀ {key passed ahead}, s.Stands key passed ahead →
    ∃ passed' ahead', t.Stands key passed' ahead' ∧ AgreeBut inserted taken passed passed' ∧
      AgreeBut inserted taken ahead ahead'

/-- Shifting cursors does not change their keys. -/
theorem keys_shiftCursors (s : Slot) (p : Int → Bool) (amount : Int) :
    (s.shiftCursors p amount).cursors.map Cursor.key = s.cursors.map Cursor.key := by
  unfold shiftCursors
  rw [List.map_map]
  refine List.map_congr_left fun c _ => ?_
  show (c.shift p amount).key = c.key
  unfold Cursor.shift
  split <;> rfl

/-- A cursor is shifted if its position is one of those to be shifted. -/
theorem cursor?_shiftCursors (s : Slot) (p : Int → Bool) (amount : Int) (key : Nat) :
    (s.shiftCursors p amount).cursor? key =
      (s.cursor? key).map fun n => if p n then n + amount else n := by
  have hkey : ∀ c : Cursor, (c.shift p amount).key = c.key := by
    intro c
    unfold Cursor.shift
    split <;> rfl
  unfold cursor? shiftCursors
  rw [List.find?_map]
  simp only [Function.comp_def, hkey]
  rw [Option.map_map, Option.map_map]
  refine Option.map_congr fun c _ => ?_
  unfold Cursor.shift
  by_cases hp : p c.position = true <;> simp [hp]

/-- Taking out a child. -/
theorem carries_removeAt {k : Nat} {i : NodeId} (h : s.children[k]? = some i) :
    Carries [] [i] s (s.removeAt k k) where
  keys_eq := keys_shiftCursors _ _ _
  lastKey_eq := rfl
  stands := by
    intro key passed ahead hs
    have hchildren : (s.removeAt k k).children = (passed ++ ahead).eraseIdx k := by
      rw [← hs.children_eq]
      rfl
    have hcursor : (s.removeAt k k).cursor? key =
        some (if (k : Int) ≤ (passed.length : Int) - 1 then (passed.length : Int) - 1 + -1
          else (passed.length : Int) - 1) := by
      rw [removeAt, cursor?_shiftCursors]
      show (s.cursor? key).map _ = _
      rw [hs.cursor_eq]
      simp
    rw [hs.children_eq] at h
    by_cases hk : k < passed.length
    · rw [List.getElem?_append_left hk] at h
      refine ⟨passed.eraseIdx k, ahead, ⟨?_, ?_⟩, .of_eraseIdx h, .refl _ _ _⟩
      · rw [hchildren, List.eraseIdx_append_of_lt_length hk]
      · rw [hcursor, if_pos (by omega), List.length_eraseIdx_of_lt hk]
        congr 1
        omega
    · rw [List.getElem?_append_right (by omega)] at h
      refine ⟨passed, ahead.eraseIdx (k - passed.length), ⟨?_, ?_⟩, .refl _ _ _, .of_eraseIdx h⟩
      · rw [hchildren, List.eraseIdx_append_of_length_le (by omega)]
      · rw [hcursor, if_neg (by omega)]

/-- Splicing at a position from the front puts nodes behind as many as the position says. -/
theorem spliceAt_natCast (xs new : List NodeId) (k : Nat) :
    spliceAt xs k new = xs.take k ++ new ++ xs.drop k := by
  have hk : ¬(k : Int) < 0 := by omega
  unfold spliceAt clampIndex
  simp only [if_neg hk, Int.toNat_natCast]
  by_cases hle : k ≤ xs.length
  · rw [Nat.min_eq_left hle]
  · have hle : xs.length ≤ k := by omega
    rw [Nat.min_eq_right hle, List.take_of_length_le hle, List.drop_of_length_le hle,
      List.take_of_length_le (Nat.le_refl _), List.drop_of_length_le (Nat.le_refl _)]

theorem children_insertBefore (s : Slot) (k : Nat) (new : List NodeId) :
    (s.insertBefore k new).children = s.children.take k ++ new ++ s.children.drop k :=
  spliceAt_natCast s.children new k

/-- A cursor is moved by an insertion before it, or at it, and by no other. -/
theorem cursor?_insertBefore (hs : s.Stands key passed ahead) (k : Nat) (new : List NodeId) :
    (s.insertBefore k new).cursor? key =
      some (if (k : Int) ≤ (passed.length : Int) - 1 then (passed.length : Int) - 1 + new.length
        else (passed.length : Int) - 1) := by
  rw [insertBefore, cursor?_shiftCursors]
  show (s.cursor? key).map _ = _
  rw [hs.cursor_eq]
  simp

/-- Children put in at the position of a cursor or before it are passed. -/
theorem Stands.insertBefore_passed (hs : s.Stands key passed ahead) {k : Nat} (new : List NodeId)
    (hk : k < passed.length) :
    (s.insertBefore k new).Stands key (passed.take k ++ new ++ passed.drop k) ahead where
  children_eq := by
    rw [children_insertBefore, hs.children_eq, List.take_append_of_le_length hk.le,
      List.drop_append_of_le_length hk.le, List.append_assoc, List.append_assoc, List.append_assoc]
  cursor_eq := by
    rw [cursor?_insertBefore hs, if_pos (by omega)]
    simp only [List.length_append, List.length_take, List.length_drop]
    congr 1
    omega

/-- Children put in behind the position of a cursor are ahead. -/
theorem Stands.insertBefore_ahead (hs : s.Stands key passed ahead) {k : Nat} (new : List NodeId)
    (hk : passed.length ≤ k) :
    (s.insertBefore k new).Stands key passed
      (ahead.take (k - passed.length) ++ new ++ ahead.drop (k - passed.length)) where
  children_eq := by
    rw [children_insertBefore, hs.children_eq, List.take_append, List.drop_append,
      List.take_of_length_le hk, List.drop_of_length_le hk, List.nil_append, List.append_assoc,
      List.append_assoc, List.append_assoc]
  cursor_eq := by rw [cursor?_insertBefore hs, if_neg (by omega)]

/-- Putting in children. -/
theorem carries_insertBefore (s : Slot) (k : Nat) (new : List NodeId) :
    Carries new new s (s.insertBefore k new) where
  keys_eq := keys_shiftCursors _ _ _
  lastKey_eq := rfl
  stands := by
    intro key passed ahead hs
    by_cases hk : k < passed.length
    · exact ⟨_, _, hs.insertBefore_passed new hk, .of_insert _ _ _, .refl _ _ _⟩
    · exact ⟨_, _, hs.insertBefore_ahead new (by omega), .refl _ _ _, .of_insert _ _ _⟩

/-- Adding children at the end is putting them in behind the last one. -/
theorem Stands.append (hs : s.Stands key passed ahead) (new : List NodeId) :
    Stands { s with children := s.children ++ new } key passed (ahead ++ new) where
  children_eq := by
    show s.children ++ new = _
    rw [hs.children_eq, List.append_assoc]
  cursor_eq := hs.cursor_eq

/-- Nodes put behind all others are behind every cursor. -/
theorem carries_append (s : Slot) (new : List NodeId) :
    Carries new new s { s with children := s.children ++ new } where
  keys_eq := rfl
  lastKey_eq := rfl
  stands := by
    intro key passed ahead hs
    refine ⟨passed, ahead ++ new, hs.append new, .refl _ _ _, ?_⟩
    have hinsert := AgreeBut.of_insert new ahead ahead.length
    rwa [List.take_length, List.drop_length, List.append_nil] at hinsert

/-- Changing anything but children and cursors. -/
theorem carries_of_eq (hchildren : t.children = s.children) (hcursors : t.cursors = s.cursors)
    (hlastKey : t.lastKey = s.lastKey) : Carries inserted taken s t where
  keys_eq := by rw [hcursors]
  lastKey_eq := hlastKey
  stands := by
    intro key passed ahead hs
    refine ⟨passed, ahead, ⟨hchildren.trans hs.children_eq, ?_⟩, .refl _ _ _, .refl _ _ _⟩
    rw [cursor?, hcursors]
    exact hs.cursor_eq

end Slot

/-! ## All containers -/

/-- An iteration over the children of a container, by the key of its cursor. -/
@[ext] structure Iteration where
  container : NodeId
  key : Nat
deriving DecidableEq

namespace Iteration

variable {it : Iteration} {f g : Forest} {passed ahead : List NodeId}

/-- An iteration runs, and the position that is stored for it divides the children of its container
into those up to there, which it has passed, and those behind, which are ahead. -/
structure Stands (it : Iteration) (f : Forest) (passed ahead : List NodeId) : Prop where
  childrenOf_eq : f.childrenOf it.container = passed ++ ahead
  position_eq : (f.get? it.container).bind (·.cursor? it.key) = some ((passed.length : Int) - 1)

/-- An iteration stands where its cursor in the slot of its container says. -/
theorem stands_iff {s : Slot} (hs : f.get? it.container = some s) :
    it.Stands f passed ahead ↔ s.Stands it.key passed ahead := by
  refine ⟨fun h => ⟨?_, ?_⟩, fun h => ⟨?_, ?_⟩⟩
  · rw [← h.childrenOf_eq, Forest.childrenOf_of_get? hs]
  · rw [← h.position_eq, hs]
    rfl
  · rw [Forest.childrenOf_of_get? hs, h.children_eq]
  · rw [hs]
    exact h.cursor_eq

theorem Stands.exists_slot (h : it.Stands f passed ahead) :
    ∃ s, f.get? it.container = some s ∧ s.Stands it.key passed ahead := by
  obtain ⟨s, hs, -⟩ := Option.bind_eq_some_iff.1 h.position_eq
  exact ⟨s, hs, (stands_iff hs).1 h⟩

/-- Only its container matters to an iteration. -/
theorem Stands.congr (h : it.Stands f passed ahead)
    (hget : g.get? it.container = f.get? it.container) : it.Stands g passed ahead := by
  obtain ⟨s, hs, hstands⟩ := h.exists_slot
  exact (stands_iff (hget.trans hs)).2 hstands

end Iteration

namespace Forest

variable {f g h : Forest} {inserted inserted' taken taken' : List NodeId} {c i : NodeId}

/-- The keys of the cursors of a node. -/
def keysOf (f : Forest) (i : NodeId) : List Nat :=
  ((f.get? i).map fun s => s.cursors.map Cursor.key).getD []

/-- Keys were given out if they are below the next one. -/
theorem keysGiven_iff : f.KeysGiven ↔ ∀ i, ∀ k ∈ f.keysOf i, k < f.nextKey i := by
  constructor
  · intro hf i k hk
    unfold keysOf nextKey at *
    cases hs : f.get? i with
    | none =>
      rw [hs] at hk
      cases hk
    | some s =>
      rw [hs] at hk
      obtain ⟨cursor, hcursor, rfl⟩ := List.mem_map.1 hk
      exact Nat.lt_succ_of_le (hf i s hs cursor hcursor)
  · intro hf i s hs cursor hcursor
    have hk := hf i cursor.key (by
      unfold keysOf
      rw [hs]
      exact List.mem_map_of_mem hcursor)
    unfold nextKey at hk
    rw [hs] at hk
    exact Nat.le_of_lt_succ hk

/-- A change of one node that leaves the keys of its cursors. -/
theorem keysOf_update (a : Slot → Slot)
    (ha : ∀ s, f.get? c = some s → (a s).cursors.map Cursor.key = s.cursors.map Cursor.key)
    (i : NodeId) : (f.update c a).keysOf i = f.keysOf i := by
  unfold keysOf
  by_cases hi : c = i
  · subst hi
    rw [get?_update_self, Option.map_map]
    exact congrArg (Option.getD · []) (Option.map_congr ha)
  · rw [get?_update_of_ne a hi]

/-- The next key is told by the last key of a slot. -/
theorem nextKey_update (a : Slot → Slot)
    (ha : ∀ s, f.get? c = some s → (a s).lastKey = s.lastKey) (i : NodeId) :
    (f.update c a).nextKey i = f.nextKey i := by
  unfold nextKey
  by_cases hi : c = i
  · subst hi
    rw [get?_update_self, Option.map_map]
    exact congrArg (fun o : Option Nat => o.getD 0 + 1) (Option.map_congr ha)
  · rw [get?_update_of_ne a hi]

/-- The same iterations run, and what is on either side of each of them is the same but for nodes
that were inserted or taken. -/
structure Carries (inserted taken : List NodeId) (f g : Forest) : Prop where
  keysOf_eq : ∀ i, g.keysOf i = f.keysOf i
  nextKey_eq : ∀ i, g.nextKey i = f.nextKey i
  stands : ∀ {it : Iteration} {passed ahead}, it.Stands f passed ahead →
    ∃ passed' ahead', it.Stands g passed' ahead' ∧ AgreeBut inserted taken passed passed' ∧
      AgreeBut inserted taken ahead ahead'

namespace Carries

theorem refl (inserted taken : List NodeId) (f : Forest) : Carries inserted taken f f where
  keysOf_eq _ := rfl
  nextKey_eq _ := rfl
  stands hs := ⟨_, _, hs, .refl _ _ _, .refl _ _ _⟩

/-- What carries iterations along twice carries them along, with the nodes of both that came or
went. -/
theorem trans (hfg : Carries inserted taken f g) (hgh : Carries inserted taken g h) :
    Carries inserted taken f h where
  keysOf_eq i := (hgh.keysOf_eq i).trans (hfg.keysOf_eq i)
  nextKey_eq i := (hgh.nextKey_eq i).trans (hfg.nextKey_eq i)
  stands hs := by
    obtain ⟨passed₁, ahead₁, hs₁, hpassed₁, hahead₁⟩ := hfg.stands hs
    obtain ⟨passed₂, ahead₂, hs₂, hpassed₂, hahead₂⟩ := hgh.stands hs₁
    exact ⟨passed₂, ahead₂, hs₂, hpassed₁.trans hpassed₂, hahead₁.trans hahead₂⟩

/-- Iterations are carried along also if more nodes may have come or gone. -/
theorem mono (hfg : Carries inserted taken f g) (hinserted : inserted ⊆ inserted')
    (htaken : taken ⊆ taken') : Carries inserted' taken' f g where
  keysOf_eq := hfg.keysOf_eq
  nextKey_eq := hfg.nextKey_eq
  stands hs := by
    obtain ⟨passed₁, ahead₁, hs₁, hpassed₁, hahead₁⟩ := hfg.stands hs
    exact ⟨passed₁, ahead₁, hs₁, hpassed₁.mono hinserted htaken, hahead₁.mono hinserted htaken⟩

/-- What carries iterations along gives out no keys that were not given out. -/
theorem keysGiven (hfg : Carries inserted taken f g) (hf : f.KeysGiven) : g.KeysGiven := by
  rw [keysGiven_iff] at hf ⊢
  intro i
  rw [hfg.keysOf_eq, hfg.nextKey_eq]
  exact hf i

/-- Changing one node. -/
theorem update {a : Slot → Slot} (ha : ∀ s, f.get? c = some s → s.Carries inserted taken (a s)) :
    Carries inserted taken f (f.update c a) where
  keysOf_eq := keysOf_update a fun s hs => (ha s hs).keys_eq
  nextKey_eq := nextKey_update a fun s hs => (ha s hs).lastKey_eq
  stands := by
    intro it passed ahead hs
    by_cases hi : c = it.container
    · subst hi
      obtain ⟨s, hget, hstands⟩ := hs.exists_slot
      obtain ⟨passed', ahead', hstands', hpassed, hahead⟩ := (ha s hget).stands hstands
      refine ⟨passed', ahead', (Iteration.stands_iff ?_).2 hstands', hpassed, hahead⟩
      rw [get?_update_self, hget]
      rfl
    · exact ⟨passed, ahead, hs.congr (get?_update_of_ne a hi), .refl _ _ _, .refl _ _ _⟩

/-- Changing nothing about a node but its parent. -/
theorem withParent (f : Forest) (i : NodeId) (q : Option NodeId) :
    Carries inserted taken f (f.withParent i q) :=
  update fun _ _ => Slot.carries_of_eq rfl rfl rfl

/-- A new node without children and cursors. -/
theorem add (f : Forest) {t : Slot} (hcursors : t.cursors = []) (hlastKey : t.lastKey = 0) :
    Carries inserted taken f (f.add t).2 := by
  have hnew : ∀ i, f.get? i ≠ none → (f.add t).2.get? i = f.get? i := by
    intro i hi
    rw [get?_add, if_neg]
    rintro rfl
    exact hi (Array.getElem?_eq_none (Nat.le_refl _))
  have hnone : ∀ i, f.get? i = none → (f.add t).2.get? i = none ∨ (f.add t).2.get? i = some t := by
    intro i hi
    rw [get?_add]
    split
    · exact Or.inr rfl
    · exact Or.inl hi
  refine ⟨fun i => ?_, fun i => ?_, fun {it passed ahead} hs => ?_⟩
  · unfold keysOf
    cases hi : f.get? i with
    | none =>
      rcases hnone i hi with h | h
      · rw [h]
      · rw [h, Option.map_some, hcursors]
        rfl
    | some s => rw [hnew i (by simp [hi]), hi]
  · unfold nextKey
    cases hi : f.get? i with
    | none =>
      rcases hnone i hi with h | h
      · rw [h]
      · rw [h, Option.map_some, hlastKey]
        rfl
    | some s => rw [hnew i (by simp [hi]), hi]
  · obtain ⟨s, hget, -⟩ := hs.exists_slot
    exact ⟨passed, ahead, hs.congr (hnew _ (by simp [hget])), .refl _ _ _, .refl _ _ _⟩

end Carries

end Forest

end PixelUnit
