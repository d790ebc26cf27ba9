import PixelUnit.Proofs.Forest.Failures

/-!
# Positions and the nodes at them

A place among the children of a container is named by a node or by its position. The position is
taken as it is when the nodes to be inserted are gone already, and cursors are compared with it as
it is, so that it means what the node means only under conditions (`Consistent.places_agree`): a
position from the front, if no node is taken from before it; a position from the end, if none is
taken from behind it and no cursor stands before the child. The position behind the last child that
is counted from the end is the first position of all, and never means what the node means.
-/

namespace PixelUnit

/-- Puts children in at a position, before the cursors whose positions satisfy `p`. -/
def Slot.insertAt (s : Slot) (index : Int) (p : Int → Bool) (new : List NodeId) : Slot :=
  { s with children := spliceAt s.children index new }.shiftCursors p new.length

namespace Forest

variable {f g : Forest} {c d e i : NodeId} {index : Int} {new front back : List NodeId}

/-! ## Lists and cursors -/

/-- A clamped position is none beyond the end. -/
theorem clampIndex_le (n : Nat) (index : Int) : clampIndex n index ≤ n := by
  unfold clampIndex
  split
  · omega
  · exact Nat.min_le_right _ _

theorem clampIndex_of_nonneg {n : Nat} (hindex : 0 ≤ index) :
    clampIndex n index = min index.toNat n :=
  if_neg (Int.not_lt.2 hindex)

theorem clampIndex_of_neg {n : Nat} (hindex : index < 0) :
    clampIndex n index = (n + index).toNat :=
  if_pos hindex

/-- New nodes tell where they were put in. -/
theorem spliceAt_eq_iff {xs : List NodeId} {i j : Int} (hnew : new ≠ []) (hxs : ∀ x ∈ xs, x ∉ new) :
    spliceAt xs i new = spliceAt xs j new ↔ clampIndex xs.length i = clampIndex xs.length j := by
  obtain ⟨d, ds, rfl⟩ := List.exists_cons_of_ne_nil hnew
  have hplace : ∀ k ≤ xs.length, (xs.take k ++ (d :: ds) ++ xs.drop k).idxOf d = k := by
    intro k hk
    have htake : d ∉ xs.take k := fun h => hxs d (List.mem_of_mem_take h) List.mem_cons_self
    rw [List.append_assoc, List.idxOf_append_of_notMem htake, List.cons_append,
      List.idxOf_cons_self, List.length_take, Nat.min_eq_left hk, Nat.add_zero]
  unfold spliceAt
  dsimp only
  constructor
  · intro h
    rw [← hplace _ (clampIndex_le xs.length i), h, hplace _ (clampIndex_le xs.length j)]
  · intro h
    rw [h]

theorem spliceAt_nil (xs : List NodeId) (index : Int) : spliceAt xs index [] = xs := by
  simp [spliceAt]

theorem map_shift_zero (cursors : List Cursor) (p : Int → Bool) :
    cursors.map (·.shift p 0) = cursors := by
  simp [Cursor.shift]

/-- Shifting by the same amount gives the same cursors if and only if the same positions are
shifted. -/
theorem map_shift_eq_iff {cursors : List Cursor} {p q : Int → Bool} {amount : Int}
    (hamount : amount ≠ 0) :
    cursors.map (·.shift p amount) = cursors.map (·.shift q amount) ↔
      ∀ k ∈ cursors, (p k.position = true ↔ q k.position = true) := by
  rw [List.map_inj_left]
  refine forall₂_congr fun ⟨key, n⟩ _ => ?_
  unfold Cursor.shift
  by_cases hp : p n = true <;> by_cases hq : q n = true <;> simp [hp, hq] <;> omega

/-! ## Links after one change -/

theorem cursorsOf_of_get? {s : Slot} (h : f.get? i = some s) : f.cursorsOf i = s.cursors := by
  rw [cursorsOf, h]
  rfl

/-- Cursors over children from which nodes were taken are moved back by those taken in front of
them. -/
theorem cursorsOf_handed (f : Forest) (c : NodeId) (new : List NodeId) (d : NodeId) :
    (f.handed c new).cursorsOf d = (f.cursorsOf d).map fun k =>
      { k with position := retreat (f.childrenOf d) new k.position } := by
  unfold cursorsOf childrenOf
  rw [get?_handed]
  cases f.get? d <;> rfl

/-- Two changes of the same node, neither of its parent. -/
theorem sameLinks_update_iff {s : Slot} {a b : Slot → Slot} (hs : f.get? c = some s)
    (ha : ∀ s, (a s).parent = s.parent) (hb : ∀ s, (b s).parent = s.parent) :
    SameLinks (f.update c a) (f.update c b) ↔
      (b s).children = (a s).children ∧ (b s).cursors = (a s).cursors := by
  have hget : ∀ r : Slot → Slot, (f.update c r).get? c = some (r s) := fun r => by
    rw [get?_update_self, hs]
    rfl
  constructor
  · intro h
    have hchildren := h.childrenOf_eq c
    have hcursors := h.cursorsOf_eq c
    rw [childrenOf_of_get? (hget a), childrenOf_of_get? (hget b)] at hchildren
    rw [cursorsOf_of_get? (hget a), cursorsOf_of_get? (hget b)] at hcursors
    exact ⟨hchildren, hcursors⟩
  · rintro ⟨hchildren, hcursors⟩
    refine ⟨fun i => ?_, fun i => ?_, fun i => ?_⟩
    · by_cases hi : i = c
      · rw [hi, childrenOf_of_get? (hget a), childrenOf_of_get? (hget b), hchildren]
      · rw [childrenOf_update_of_ne hi, childrenOf_update_of_ne hi]
    · rw [parentOf_update ha, parentOf_update hb]
    · by_cases hi : i = c
      · rw [hi, cursorsOf_of_get? (hget a), cursorsOf_of_get? (hget b), hcursors]
      · unfold cursorsOf
        rw [get?_update_of_ne a (Ne.symm hi), get?_update_of_ne b (Ne.symm hi)]

/-- A child that is taken out may lose its parent first. -/
theorem without_eq (f : Forest) (p : NodeId) (k : Nat) (index : Int) (i : NodeId) :
    f.without p k index i = (f.withParent i none).update p (·.removeAt k index) := by
  refine ext_get? fun j => ?_
  unfold without withParent
  rw [get?_update, get?_update, get?_update, get?_update]
  cases f.get? j with
  | none => simp
  | some s =>
    by_cases hi : i = j
    · by_cases hp : p = j
      · simp only [hi, hp, if_true, Option.map_some]
        rfl
      · simp [hi, hp]
    · by_cases hp : p = j <;> simp [hi, hp]

/-! ## When a position means the node -/

/-- No iteration over the children of `c` stands at a position from `first` on and before `last`. -/
def NoCursor (f : Forest) (c : NodeId) (first last : Int) : Prop :=
  ∀ k ∈ f.cursorsOf c, ¬(first ≤ k.position ∧ k.position < last)

/-- A position is counted from the front or from the end. -/
theorem resolveIndex?_eq_some_iff {n k : Nat} :
    resolveIndex? n index = some k ↔ k < n ∧ (index = k ∨ index = (k : Int) - n) := by
  unfold resolveIndex?
  dsimp only
  rw [Option.ite_none_right_eq_some, Bool.and_eq_true, decide_eq_true_eq, decide_eq_true_eq,
    Option.some.injEq]
  by_cases hneg : index < 0
  · rw [if_pos hneg]
    omega
  · rw [if_neg hneg]
    omega

/-- A child that is found at a position is the one that the position resolves to. -/
theorem resolveIndex?_of_childAt (hf : f.Consistent)
    (hchildren : f.childrenOf c = front ++ e :: back) (h : childAt c index f = .ok e f) :
    resolveIndex? (f.childrenOf c).length index = some front.length := by
  have hchild : (f.childrenOf c)[front.length]? = some e := by
    rw [hchildren]
    simp
  unfold childAt at h
  rw [Edit.get_bind_apply] at h
  cases hk : resolveIndex? (f.childrenOf c).length index with
  | none =>
    rw [hk] at h
    cases h
  | some k =>
    obtain ⟨hlt, -⟩ := resolveIndex?_eq_some hk
    rw [hk, Option.bind_some, List.getElem?_eq_getElem hlt] at h
    obtain ⟨hke, -⟩ := EStateM.Result.ok.inj h
    obtain ⟨hlt', hfe⟩ := List.getElem?_eq_some_iff.1 hchild
    rw [((hf.nodup_childrenOf c).getElem_inj_iff).1 (hke.trans hfe.symm)]

/-- A negative position is passed by a cursor just if it was so before nodes were taken. -/
theorem le_retreat_of_neg {children : List NodeId} {position : Int} (hindex : index < 0) :
    index ≤ retreat children new position ↔ index ≤ position := by
  by_cases hposition : position < 0
  · rw [retreat_of_neg children new hposition]
  · have := neg_one_le_retreat children new (Int.not_lt.1 hposition)
    omega

/-- A cursor is behind a child that stays just if it was so before nodes were taken, unless the node
behind that child is taken. -/
theorem lt_retreat_iff (he : e ∉ new) (hback : ∀ j ∈ back.head?, j ∉ new) (position : Int) :
    ((front.filter (· ∉ new)).length : Int) < retreat (front ++ e :: back) new position ↔
      (front.length : Int) < position := by
  have h := le_retreat_iff (front ++ [e]) hback position
  rw [List.append_assoc, List.singleton_append, List.filter_append,
    List.filter_cons_of_pos (by simpa using he), List.filter_nil, List.length_append,
    List.length_append, List.length_singleton] at h
  push_cast at h
  exact h

/-- If all nodes behind a child that stays are taken, the cursors behind that child are those behind
all children. -/
theorem lt_retreat_iff_of_all (front : List NodeId) (he : e ∉ new)
    (hback : (back.filter (· ∉ new)).length = 0) (position : Int) :
    ((front.filter (· ∉ new)).length : Int) < retreat (front ++ e :: back) new position ↔
      ((front ++ e :: back).length : Int) ≤ position := by
  have hnil : ∀ j ∈ ([] : List NodeId).head?, j ∉ new := by simp
  have h := le_retreat_iff (front ++ e :: back) hnil position
  rw [List.append_nil, List.filter_append, List.filter_cons_of_pos (by simpa using he),
    List.length_append, List.length_cons, hback, Nat.zero_add] at h
  rw [← h]
  omega

theorem countP_mem_eq_zero_iff {ds : List NodeId} :
    ds.countP (· ∈ new) = 0 ↔ ∀ j ∈ ds, j ∉ new := by
  simp [List.countP_eq_zero]

theorem length_filter_eq_zero_iff {ds : List NodeId} :
    (ds.filter (· ∉ new)).length = 0 ↔ ∀ j ∈ ds, j ∈ new := by
  simp

/-- If all nodes behind a child that stays are taken, the cursors behind that child are behind its
old position, too, unless they stand where the children ended. -/
theorem lt_retreat_congr_of_all (he : e ∉ new) (hgone : (back.filter (· ∉ new)).length = 0)
    (position : Int) :
    (((front.filter (· ∉ new)).length : Int) < retreat (front ++ e :: back) new position ↔
        (front.length : Int) < retreat (front ++ e :: back) new position) ↔
      ¬(((front.length + (back.length + 1) : Nat) : Int) ≤ position ∧
        position < ((front.length + (back.length + 1) + front.countP (· ∈ new) : Nat) : Int)) := by
  have hfront := length_filter_not_mem front new
  have hback := length_filter_not_mem back new
  have hbehind := lt_retreat_iff_of_all front he hgone position
  rw [List.length_append, List.length_cons] at hbehind
  by_cases hle : ((front.length + (back.length + 1) : Nat) : Int) ≤ position
  · -- cursors there go back by the number of all nodes taken
    rw [iff_true_left (hbehind.2 hle), retreat_of_length_le _ _ (by simp; omega),
      List.countP_append, List.countP_cons_of_neg (by simpa using he)]
    omega
  · have hlt := mt hbehind.1 hle
    omega

/-- If no node behind a child that stays is taken, the cursors behind that child are those behind
its position from the end, unless they stand from there on and not behind the child. -/
theorem lt_retreat_congr_of_none (he : e ∉ new) (hnone : back.countP (· ∈ new) = 0)
    (hlast : back.length ≠ 0) (position : Int) :
    (((front.filter (· ∉ new)).length : Int) < retreat (front ++ e :: back) new position ↔
        -(back.length + 1 : Int) < retreat (front ++ e :: back) new position) ↔
      ¬(-(back.length + 1 : Int) + 1 ≤ position ∧ position < front.length + 1) := by
  have hhead : ∀ j ∈ back.head?, j ∉ new := fun j hj =>
    countP_mem_eq_zero_iff.1 hnone j (List.mem_of_mem_head? hj)
  have hcursor : -(back.length + 1 : Int) + 1 ≤ retreat (front ++ e :: back) new position ↔
      -(back.length + 1 : Int) + 1 ≤ position := le_retreat_of_neg (by omega)
  rw [lt_retreat_iff he hhead, Int.lt_iff_add_one_le, Int.lt_iff_add_one_le, hcursor]
  omega

/-- Two ways to put in the same new nodes do the same if the nodes come to the same place and the
same cursors go on. -/
theorem sameLinks_insertAt_iff (hc : c < f.size) (hstay : ∀ d ∈ f.childrenOf c, d ∉ new) (i j : Int)
    (p q : Int → Bool) :
    SameLinks (f.update c (·.insertAt i p new)) (f.update c (·.insertAt j q new)) ↔
      new = [] ∨
        clampIndex (f.childrenOf c).length j = clampIndex (f.childrenOf c).length i ∧
          ∀ k ∈ f.cursorsOf c, (q k.position = true ↔ p k.position = true) := by
  obtain ⟨s, hs⟩ := get?_eq_some_of_lt hc
  rw [sameLinks_update_iff (a := (·.insertAt i p new)) (b := (·.insertAt j q new)) hs (fun _ => rfl)
    fun _ => rfl]
  by_cases hnew : new = []
  · subst hnew
    simp [Slot.insertAt, Slot.shiftCursors, spliceAt_nil, map_shift_zero]
  · have hamount : (new.length : Int) ≠ 0 := by
      have := List.length_pos_iff.2 hnew
      omega
    rw [childrenOf_of_get? hs] at hstay ⊢
    rw [cursorsOf_of_get? hs, or_iff_right hnew]
    exact and_congr (spliceAt_eq_iff hnew hstay) (map_shift_eq_iff hamount)

/-- The same when the new nodes are handed over before. -/
theorem sameLinks_handed_iff (hc : c < f.size) (hchildren : f.childrenOf c = front ++ e :: back)
    (he : e ∉ new) (i j : Int) (p q : Int → Bool) {n : Nat}
    (hn : n = (front.filter (· ∉ new)).length + ((back.filter (· ∉ new)).length + 1)) :
    SameLinks ((f.handed c new).update c (·.insertAt i p new))
        ((f.handed c new).update c (·.insertAt j q new)) ↔
      new = [] ∨ clampIndex n j = clampIndex n i ∧ ∀ k ∈ f.cursorsOf c,
        (q (retreat (front ++ e :: back) new k.position) = true ↔
          p (retreat (front ++ e :: back) new k.position) = true) := by
  have hlength : ((f.handed c new).childrenOf c).length = n := by
    rw [hn, childrenOf_handed, hchildren, List.filter_append,
      List.filter_cons_of_pos (by simpa using he), List.length_append, List.length_cons]
  rw [sameLinks_insertAt_iff (by rwa [size_handed]), hlength, cursorsOf_handed, hchildren,
    List.forall_mem_map]
  rw [childrenOf_handed]
  exact fun d hd => by simpa using (List.mem_filter.1 hd).2

namespace Consistent

/-- Inserting before a position is inserting before the node that is there if no nodes are taken
from before it, for a position from the front. For one from the end, none may be taken from behind
the node, unless all are taken from before it, and no iteration may stand before it. -/
theorem insertBefore_agrees (hf : f.Consistent) (hc : f.isContainer c = true) (hnodup : new.Nodup)
    (hchildren : f.childrenOf c = front ++ e :: back) (he : e ∉ new)
    (hindex : index = front.length ∨ index = -(back.length + 1 : Int)) :
    ∃ g h, Forest.insertBefore c (.index index) new f = .ok () g ∧
      Forest.insertBefore c (.node e) new f = .ok () h ∧
      (SameLinks g h ↔ new = [] ∨ (0 ≤ index ∧ ∀ j ∈ front, j ∉ new) ∨
        index < 0 ∧ ((∀ j ∈ back, j ∉ new) ∨ ∀ j ∈ front, j ∈ new) ∧
          f.NoCursor c index front.length) := by
  refine ⟨_, _, hf.insertBefore_eq hnodup rfl,
    hf.insertBefore_eq hnodup (hf.locate_handed hchildren he), ?_⟩
  -- Both calls take the nodes out first, so only the places and the cursors can differ.
  refine (sameLinks_handed_iff (lt_size_of_isContainer hc) hchildren he _ _ _ _ rfl).trans
    (or_congr_right ?_)
  have hfront := length_filter_not_mem front new
  have hback := length_filter_not_mem back new
  rw [← countP_mem_eq_zero_iff, ← countP_mem_eq_zero_iff, ← length_filter_eq_zero_iff]
  simp only [decide_eq_true_eq]
  have hhead : ∀ j ∈ (e :: back).head?, j ∉ new := by simpa using he
  have hboundary := le_retreat_iff front hhead
  rcases hindex with rfl | rfl
  -- From the front, every node that is taken from before the place moves it; from the end, those
  -- behind it do.
  · have hpos : ¬(front.length : Int) < 0 := by omega
    simp only [hpos, false_and, or_false, Int.natCast_nonneg, true_and]
    constructor
    · rintro ⟨hplace, -⟩
      rw [clampIndex_of_nonneg (by omega), clampIndex_of_nonneg (by omega)] at hplace
      omega
    · intro hnone
      rw [hnone, Nat.add_zero] at hfront
      rw [hfront]
      exact ⟨rfl, fun _ _ => Iff.rfl⟩
  · have hneg : -(back.length + 1 : Int) < 0 := by omega
    simp only [hneg, Int.not_le.2 hneg, false_and, false_or, true_and]
    refine and_congr ?_ (forall₂_congr fun k _ => ?_)
    · rw [clampIndex_of_nonneg (by omega), clampIndex_of_neg hneg]
      omega
    · rw [hboundary, le_retreat_of_neg hneg]
      omega

/-- Inserting behind a position is inserting behind the node that is there if no nodes are taken
from before it, for a position from the front; if nodes are taken from there, all must be taken from
behind it, and no iteration may stand where the children end. For one from the end, other than the
last, none may be taken from behind the node, and no iteration may stand at it or before it. -/
theorem insertAfter_agrees (hf : f.Consistent) (hc : f.isContainer c = true) (hnodup : new.Nodup)
    (hchildren : f.childrenOf c = front ++ e :: back) (he : e ∉ new)
    (hindex : index = front.length ∨ index = -(back.length + 1 : Int)) :
    ∃ g h, Forest.insertAfter c (.index index) new f = .ok () g ∧
      Forest.insertAfter c (.node e) new f = .ok () h ∧
      (SameLinks g h ↔ new = [] ∨
        (0 ≤ index ∧ ((∀ j ∈ front, j ∉ new) ∨ (∀ j ∈ back, j ∈ new) ∧
          f.NoCursor c (f.childrenOf c).length
            ((f.childrenOf c).length + front.countP (· ∈ new) : Nat))) ∨
        index < -1 ∧ (∀ j ∈ back, j ∉ new) ∧ f.NoCursor c (index + 1) (front.length + 1)) := by
  refine ⟨_, _, hf.insertAfter_eq hnodup rfl,
    hf.insertAfter_eq hnodup (hf.locate_handed hchildren he), ?_⟩
  -- Both calls insert at a position into the same forest, so all that counts is the positions, and
  -- which cursors they move.
  refine (sameLinks_handed_iff (lt_size_of_isContainer hc) hchildren he _ _ _ _ rfl).trans
    (or_congr_right ?_)
  have hfront := length_filter_not_mem front new
  have hback := length_filter_not_mem back new
  have hlength : (f.childrenOf c).length = front.length + (back.length + 1) := by
    rw [hchildren, List.length_append, List.length_cons]
  rw [← countP_mem_eq_zero_iff, ← countP_mem_eq_zero_iff, ← length_filter_eq_zero_iff, hlength]
  simp only [decide_eq_true_eq]
  rcases hindex with rfl | rfl
  -- A position from the front. If nothing is taken from before the node, the children there are as
  -- many as before.
  · have hpos : ¬(front.length : Int) < -1 := by omega
    simp only [hpos, false_and, or_false, Int.natCast_nonneg, true_and]
    rw [clampIndex_of_nonneg (by omega), clampIndex_of_nonneg (by omega)]
    by_cases hnone : front.countP (· ∈ new) = 0
    · rw [hnone, Nat.add_zero] at hfront
      rw [hfront]
      exact iff_of_true ⟨rfl, fun _ _ => Iff.rfl⟩ (Or.inl hnone)
    -- Otherwise the position is beyond the children that are left, so all behind the node must be
    -- gone.
    · rw [or_iff_right hnone]
      refine Iff.trans (and_congr_left' (b := (back.filter (· ∉ new)).length = 0) (by omega)) ?_
      exact and_congr_right fun hgone => forall₂_congr fun k _ =>
        lt_retreat_congr_of_all he hgone k.position
  · have hneg : -(back.length + 1 : Int) < 0 := by omega
    simp only [Int.not_le.2 hneg, false_and, false_or]
    by_cases hlast : back.length = 0
    · -- behind the last child, counted from the end, is before all children
      rw [hlast]
      refine iff_of_false (fun h => ?_) fun h => absurd h.1 (by omega)
      have hplace := h.1
      rw [clampIndex_of_nonneg (by omega), clampIndex_of_nonneg (by omega)] at hplace
      omega
    · have hbefore : -(back.length + 1 : Int) < -1 := by omega
      simp only [hbefore, true_and]
      refine Iff.trans (and_congr_left' (b := back.countP (· ∈ new) = 0) ?_)
        (and_congr_right fun hnone => forall₂_congr fun k _ =>
          lt_retreat_congr_of_none he hnone hlast k.position)
      rw [clampIndex_of_nonneg (by omega), clampIndex_of_neg (by omega)]
      omega

/-- Removing the child at a position is removing the node that is there, unless the position is
counted from the end and an iteration stands before the child. -/
theorem removeChild_agrees (hf : f.Consistent) (hc : f.isContainer c = true)
    (hchildren : f.childrenOf c = front ++ e :: back)
    (hindex : resolveIndex? (f.childrenOf c).length index = some front.length) :
    ∃ g h, Forest.removeChild c (.index index) f = .ok () g ∧
      Forest.removeChild c (.node e) f = .ok () h ∧
      (SameLinks g h ↔ 0 ≤ index ∨ f.NoCursor c index front.length) := by
  -- The node stands once among the children, so both calls find the same place.
  have hchild : (f.childrenOf c)[front.length]? = some e := by
    rw [hchildren]
    simp
  have hfront : e ∉ front := by
    have hnodup := hf.nodup_childrenOf c
    rw [hchildren] at hnodup
    exact fun h => (List.nodup_append.1 hnodup).2.2 e h e List.mem_cons_self rfl
  obtain ⟨hlt, hplace⟩ := resolveIndex?_eq_some_iff.1 hindex
  have hindex' : resolveIndex? (f.childrenOf c).length front.length = some front.length :=
    resolveIndex?_eq_some_iff.2 ⟨hlt, Or.inl rfl⟩
  refine ⟨_, _, removeChild_of_locate rfl hindex hchild,
    removeChild_of_locate (locate_append hchildren hfront) hindex' hchild, ?_⟩
  obtain ⟨s, hs⟩ := get?_eq_some_of_lt (f := f.withParent e none) (i := c)
    (by rw [size_withParent]; exact lt_size_of_isContainer hc)
  have hcursors : f.cursorsOf c = s.cursors := by
    rw [← cursorsOf_of_get? hs]
    unfold cursorsOf withParent
    rw [get?_update]
    split
    · cases f.get? c <;> rfl
    · rfl
  rw [without_eq, without_eq, sameLinks_update_iff (a := (·.removeAt front.length index))
    (b := (·.removeAt front.length front.length)) hs (fun _ => rfl) fun _ => rfl]
  -- The children agree then; the cursors agree just if none of them tells the two places apart.
  refine (and_iff_right rfl).trans ((map_shift_eq_iff (by omega)).trans ?_)
  simp only [decide_eq_true_eq]
  rw [← hcursors]
  by_cases hneg : index < 0
  · rw [or_iff_right (Int.not_le.2 hneg)]
    refine forall₂_congr fun k _ => ?_
    omega
  · obtain rfl : index = front.length := by omega
    exact iff_of_true (fun _ _ => Iff.rfl) (Or.inl (by omega))

/-- What a position does, compared with the node that is there. -/
theorem places_agree (hf : f.Consistent) (hc : f.isContainer c = true)
    (hchildren : f.childrenOf c = front ++ e :: back) (hindex : childAt c index f = .ok e f)
    (he : e ∉ new) (hnodup : new.Nodup) :
    (∃ g h, Forest.insertBefore c (.index index) new f = .ok () g ∧
      Forest.insertBefore c (.node e) new f = .ok () h ∧
      (SameLinks g h ↔ new = [] ∨ (0 ≤ index ∧ ∀ j ∈ front, j ∉ new) ∨
        index < 0 ∧ ((∀ j ∈ back, j ∉ new) ∨ ∀ j ∈ front, j ∈ new) ∧
          f.NoCursor c index front.length)) ∧
    (∃ g h, Forest.insertAfter c (.index index) new f = .ok () g ∧
      Forest.insertAfter c (.node e) new f = .ok () h ∧
      (SameLinks g h ↔ new = [] ∨
        (0 ≤ index ∧ ((∀ j ∈ front, j ∉ new) ∨ (∀ j ∈ back, j ∈ new) ∧
          f.NoCursor c (f.childrenOf c).length
            ((f.childrenOf c).length + front.countP (· ∈ new) : Nat))) ∨
        index < -1 ∧ (∀ j ∈ back, j ∉ new) ∧ f.NoCursor c (index + 1) (front.length + 1))) ∧
    ∃ g h, Forest.removeChild c (.index index) f = .ok () g ∧
      Forest.removeChild c (.node e) f = .ok () h ∧
      (SameLinks g h ↔ 0 ≤ index ∨ f.NoCursor c index front.length) := by
  have hresolve := resolveIndex?_of_childAt hf hchildren hindex
  have hplace : index = front.length ∨ index = -(back.length + 1 : Int) := by
    have hlength : (f.childrenOf c).length = front.length + (back.length + 1) := by
      rw [hchildren, List.length_append, List.length_cons]
    have := (resolveIndex?_eq_some_iff.1 hresolve).2
    omega
  exact ⟨hf.insertBefore_agrees hc hnodup hchildren he hplace,
    hf.insertAfter_agrees hc hnodup hchildren he hplace,
    hf.removeChild_agrees hc hchildren hresolve⟩

end Consistent

/-- The forest of two rules with an iteration that has come to the comment between them. -/
def visitedRules : Forest :=
  (({} : Forest).plant none twoRules).2.update 0 (·.startCursorAt 1)

theorem consistent_visitedRules : visitedRules.Consistent :=
  (sameShape_startCursorAt _ 0 1).consistent consistent_twoRules
    (consistent_twoRules.keysGiven.startCursorAt 0 1)

/-- A comment from the last rule goes before the comment that the iteration has come to, by the
position of that comment or by itself. -/
theorem places_agree_visitedRules : visitedRules.Consistent ∧ childAt 0 1 visitedRules =
      .ok 4 visitedRules ∧
    (∃ g h, insertBefore 0 (.index 1) [6] visitedRules = .ok () g ∧
      insertBefore 0 (.node 4) [6] visitedRules = .ok () h ∧ SameLinks g h) ∧
    (∃ g h, insertAfter 0 (.index 1) [6] visitedRules = .ok () g ∧
      insertAfter 0 (.node 4) [6] visitedRules = .ok () h ∧ SameLinks g h) ∧
    ∃ g h, removeChild 0 (.index 1) visitedRules = .ok () g ∧
      removeChild 0 (.node 4) visitedRules = .ok () h ∧ SameLinks g h := by
  have hchildren : visitedRules.childrenOf 0 = [1] ++ 4 :: [5] := by decide
  have hplace : childAt 0 1 visitedRules = .ok 4 visitedRules := rfl
  obtain ⟨⟨g, h, hg, hh, hbefore⟩, ⟨g', h', hg', hh', hafter⟩, g'', h'', hg'', hh'', hremove⟩ :=
    consistent_visitedRules.places_agree (by decide) hchildren hplace (by decide : 4 ∉ [6])
      (by decide)
  exact ⟨consistent_visitedRules, hplace,
    ⟨g, h, hg, hh, hbefore.2 (Or.inr (Or.inl (by decide)))⟩,
    ⟨g', h', hg', hh', hafter.2 (Or.inr (Or.inl ⟨by decide, Or.inl (by decide)⟩))⟩,
    g'', h'', hg'', hh'', hremove.2 (Or.inl (by decide))⟩

/-- A comment goes behind the last rule, which is named by its position from the end or by itself:
the position puts the comment before everything else. -/
theorem not_sameLinks_lastPosition : ∃ g h,
    (({} : Forest).plant none twoRules).2.Consistent ∧
    childAt 0 (-1) (({} : Forest).plant none twoRules).2 =
      .ok 5 (({} : Forest).plant none twoRules).2 ∧
    insertAfter 0 (.index (-1)) [2] (({} : Forest).plant none twoRules).2 = .ok () g ∧
    insertAfter 0 (.node 5) [2] (({} : Forest).plant none twoRules).2 = .ok () h ∧
    g.childrenOf 0 = [2, 1, 4, 5] ∧ h.childrenOf 0 = [1, 4, 5, 2] ∧ ¬SameLinks g h := by
  refine ⟨_, _, consistent_twoRules, rfl, rfl, rfl, by decide, by decide, fun h => ?_⟩
  have hchildren := h.childrenOf_eq 0
  exact absurd hchildren (by decide)

end Forest

end PixelUnit
