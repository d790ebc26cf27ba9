import PixelUnit.Proofs.Forest.Planted
import PixelUnit.Proofs.Forest.Shifts

/-!
# Nodes that are handed over

A container that takes nodes over takes all of them from where they were before it looks for the
place where they go. What it has by then is `Forest.handed`: every other node is where it was, among
the same siblings, and every cursor has gone back by the number of nodes taken at its position or
before it (`Forest.retreat`). A cursor at or behind a child that stays is at or behind it still
(`le_retreat_iff`). A node that is handed over twice is not found the second time
(`Consistent.adopt_error`).
-/

namespace PixelUnit

open Sheet

namespace Forest

variable {f g : Forest} {c d e i : NodeId} {new pre front back : List NodeId}

/-! ## Cursors that go back -/

/-- Where a cursor over children is when the nodes `new` are taken from them. -/
def retreat (children new : List NodeId) (position : Int) : Int :=
  position - ((children.take (position + 1).toNat).countP (· ∈ new) : Nat)

/-- What is left of the children and what is taken from them make all of them. -/
theorem length_filter_not_mem (children new : List NodeId) :
    (children.filter (· ∉ new)).length + children.countP (· ∈ new) = children.length := by
  rw [← List.countP_eq_length_filter, Nat.add_comm,
    List.length_eq_countP_add_countP (p := (· ∈ new)) (l := children)]
  simp

theorem retreat_nil (children : List NodeId) (position : Int) :
    retreat children [] position = position := by
  simp [retreat]

theorem retreat_of_neg {position : Int} (children new : List NodeId) (h : position < 0) :
    retreat children new position = position := by
  have hnat : (position + 1).toNat = 0 := by omega
  simp [retreat, hnat]

/-- A cursor that stands at a child, or has yet to start, does not go back behind the start. -/
theorem neg_one_le_retreat {position : Int} (children new : List NodeId) (h : 0 ≤ position) :
    -1 ≤ retreat children new position := by
  have hcount : (children.take (position + 1).toNat).countP (· ∈ new) ≤ (position + 1).toNat :=
    (List.countP_le_length).trans (List.length_take_le _ _)
  unfold retreat
  omega

/-- Beyond the last child a cursor goes back by the number of all nodes taken. -/
theorem retreat_of_length_le {position : Int} (children new : List NodeId)
    (h : children.length ≤ position + 1) :
    retreat children new position = position - (children.countP (· ∈ new) : Nat) := by
  unfold retreat
  rw [List.take_of_length_le (by omega)]

/-- A cursor is at or behind a boundary among the children just if it was so before nodes were
taken, unless the node behind the boundary is taken itself. -/
theorem le_retreat_iff (front : List NodeId) {back : List NodeId}
    (hback : ∀ i ∈ back.head?, i ∉ new) (position : Int) :
    ((front.filter (· ∉ new)).length : Int) ≤ retreat (front ++ back) new position ↔
      (front.length : Int) ≤ position := by
  have hfront := length_filter_not_mem front new
  unfold retreat
  by_cases hle : (front.length : Int) ≤ position
  · obtain ⟨n, hn⟩ : ∃ n : Nat, (position + 1).toNat = front.length + (n + 1) :=
      ⟨(position - front.length).toNat, by omega⟩
    have hbehind : (back.take (n + 1)).countP (· ∈ new) ≤ n := by
      cases back with
      | nil => simp
      | cons i back =>
        rw [List.take_succ_cons, List.countP_cons_of_neg (by simpa using hback i rfl)]
        exact List.countP_le_length.trans (List.length_take_le n back)
    rw [hn, List.take_length_add_append, List.countP_append]
    refine iff_of_true ?_ hle
    omega
  · refine iff_of_false ?_ hle
    have hsub : (front.take (position + 1).toNat).countP (· ∉ new) ≤ front.countP (· ∉ new) :=
      (List.take_sublist _ _).countP_le
    have htake := length_filter_not_mem (front.take (position + 1).toNat) new
    rw [← List.countP_eq_length_filter, List.length_take] at htake
    rw [← List.countP_eq_length_filter, List.take_append_of_le_length (by omega)]
    omega

/-- One more node is taken: the cursors at it and behind it go back by one. -/
theorem retreat_concat (hchildren : (front ++ i :: back).Nodup) (hi : i ∉ pre) (position : Int) :
    retreat (front ++ i :: back) (pre ++ [i]) position =
      if ((front.filter (· ∉ pre)).length : Int) ≤ retreat (front ++ i :: back) pre position then
        retreat (front ++ i :: back) pre position + -1
      else retreat (front ++ i :: back) pre position := by
  -- One more node that is taken counts once, since it has not been taken yet.
  have hsplit : ∀ ds : List NodeId,
      ds.countP (· ∈ pre ++ [i]) = ds.countP (· ∈ pre) + ds.count i := by
    intro ds
    induction ds with
    | nil => rfl
    | cons d ds ih =>
      rw [List.countP_cons, List.countP_cons, List.count_cons, ih]
      by_cases hd : d = i
      · simp [hd, hi]
        omega
      · simp [hd]
        omega
  have hhead : ∀ j ∈ (i :: back).head?, j ∉ pre := by simpa using hi
  have hboundary := le_retreat_iff front hhead position
  obtain ⟨-, hnodup, hdisjoint⟩ := List.nodup_append.1 hchildren
  have hfront : i ∉ front := fun h => hdisjoint i h i List.mem_cons_self rfl
  unfold retreat at hboundary ⊢
  -- What is left to be seen is whether the new node is among the children up to the cursor.
  simp only [hboundary]
  rw [hsplit]
  split
  · next hle =>
    have hone : ((front ++ i :: back).take (position + 1).toNat).count i = 1 := by
      refine List.count_eq_one_of_mem (hchildren.sublist (List.take_sublist _ _)) ?_
      obtain ⟨n, hn⟩ : ∃ n : Nat, (position + 1).toNat = front.length + (n + 1) :=
        ⟨(position - front.length).toNat, by omega⟩
      rw [hn, List.take_length_add_append, List.take_succ_cons]
      simp
    omega
  · next hlt =>
    have hnone : ((front ++ i :: back).take (position + 1).toNat).count i = 0 := by
      rw [List.take_append_of_le_length (by omega), List.count_eq_zero]
      exact fun h => hfront (List.mem_of_mem_take h)
    omega

end Forest

namespace Slot

variable {s : Slot} {i : NodeId} {pre front back : List NodeId}

/-- The node without the children `new`. -/
def release (s : Slot) (new : List NodeId) : Slot :=
  { s with
    children := s.children.filter (· ∉ new)
    cursors := s.cursors.map fun k =>
      { k with position := Forest.retreat s.children new k.position } }

theorem release_nil (s : Slot) : s.release [] = s := by
  simp [release, Forest.retreat_nil]

theorem filter_not_mem_concat (ds : List NodeId) (hi : i ∉ ds) :
    ds.filter (· ∉ pre ++ [i]) = ds.filter (· ∉ pre) := by
  refine List.filter_congr fun d hd => ?_
  have hne : d ≠ i := fun h => hi (h ▸ hd)
  simp [hne]

/-- What is not a child cannot be taken. -/
theorem release_concat_of_not_mem (hi : i ∉ s.children) :
    s.release (pre ++ [i]) = s.release pre := by
  unfold release Forest.retreat
  rw [filter_not_mem_concat s.children hi]
  congr 1
  refine List.map_congr_left fun k _ => ?_
  have hcount : (s.children.take (k.position + 1).toNat).countP (· ∈ pre ++ [i]) =
      (s.children.take (k.position + 1).toNat).countP (· ∈ pre) := by
    refine List.countP_congr fun d hd => ?_
    have hne : d ≠ i := fun h => hi (h ▸ List.mem_of_mem_take hd)
    simp [hne]
  rw [hcount]

/-- One more child is taken. -/
theorem release_concat (hs : s.children = front ++ i :: back) (hnodup : s.children.Nodup)
    (hi : i ∉ pre) :
    s.release (pre ++ [i]) = (s.release pre).removeAt (front.filter (· ∉ pre)).length
      (front.filter (· ∉ pre)).length := by
  rw [hs] at hnodup
  obtain ⟨-, hback, hdisjoint⟩ := List.nodup_append.1 hnodup
  have hfront : i ∉ front := fun h => hdisjoint i h i List.mem_cons_self rfl
  have hback' : i ∉ back := (List.nodup_cons.1 hback).1
  unfold release removeAt shiftCursors
  simp only [hs]
  congr 1
  · rw [List.filter_append, List.filter_append, filter_not_mem_concat front hfront,
      List.filter_cons_of_neg (by simp), filter_not_mem_concat back hback',
      List.filter_cons_of_pos (by simpa using hi),
      List.eraseIdx_append_of_length_le (Nat.le_refl _), Nat.sub_self, List.eraseIdx_cons_zero]
  · rw [List.map_map]
    refine List.map_congr_left fun k _ => ?_
    rw [Forest.retreat_concat hnodup hi]
    unfold Cursor.shift
    simp only [Function.comp_def, decide_eq_true_eq]
    split <;> rfl

end Slot

namespace Forest

variable {f g : Forest} {c d e i : NodeId} {new pre front back : List NodeId}

/-! ## The forest in between -/

/-- The forest with nodes taken from where they were, and `c` as their parent: what is left to do is
to put them among its children. -/
def handed (f : Forest) (c : NodeId) (new : List NodeId) : Forest :=
  ⟨f.slots.mapIdx fun i s =>
    { s.release new with parent := if i ∈ new then some c else s.parent }⟩

theorem get?_handed (f : Forest) (c : NodeId) (new : List NodeId) (i : NodeId) :
    (f.handed c new).get? i = (f.get? i).map fun s =>
      { s.release new with parent := if i ∈ new then some c else s.parent } :=
  Array.getElem?_mapIdx ..

theorem handed_nil (f : Forest) (c : NodeId) : f.handed c [] = f := by
  refine ext_get? fun i => ?_
  rw [get?_handed]
  simp [Slot.release_nil]

@[simp] theorem size_handed (f : Forest) (c : NodeId) (new : List NodeId) :
    (f.handed c new).size = f.size :=
  Array.size_mapIdx ..

@[simp] theorem contentOf_handed (f : Forest) (c : NodeId) (new : List NodeId) (i : NodeId) :
    (f.handed c new).contentOf i = f.contentOf i := by
  unfold contentOf
  rw [get?_handed, Option.map_map]
  rfl

/-- The children that are left when nodes were taken over. -/
@[simp] theorem childrenOf_handed (f : Forest) (c : NodeId) (new : List NodeId) (d : NodeId) :
    (f.handed c new).childrenOf d = (f.childrenOf d).filter (· ∉ new) := by
  unfold childrenOf
  rw [get?_handed]
  cases f.get? d <;> rfl

/-- The parent of a node when nodes were taken over. -/
theorem parentOf_handed (f : Forest) (c : NodeId) {new : List NodeId} {i : NodeId}
    (hi : i < f.size) :
    (f.handed c new).parentOf i = if i ∈ new then some c else f.parentOf i := by
  obtain ⟨s, hs⟩ := get?_eq_some_of_lt hi
  unfold parentOf
  rw [get?_handed, hs]
  rfl

/-- Nodes that are not taken over keep their parents. -/
theorem parentOf_handed_of_not_mem (f : Forest) (c : NodeId) (hi : i ∉ new) :
    (f.handed c new).parentOf i = f.parentOf i := by
  unfold parentOf
  rw [get?_handed]
  cases f.get? i with
  | none => rfl
  | some s => exact if_neg hi

theorem locate_node (f : Forest) (c : NodeId) (i : NodeId) :
    locate c (.node i) f = match (f.childrenOf c).idxOf? i with
      | some k => .ok (k : Int) f
      | none => .error (.notAChild (f.view i)) f := by
  rw [locate, Edit.get_bind_apply]
  cases (f.childrenOf c).idxOf? i <;> rfl

/-- The position of a child is the number of children in front of it. -/
theorem locate_append (hchildren : f.childrenOf c = front ++ i :: back) (hi : i ∉ front) :
    locate c (.node i) f = .ok (front.length : Int) f := by
  have hfirst : (f.childrenOf c).idxOf? i = some front.length := by
    rw [List.idxOf?_eq_some_iff, hchildren]
    refine ⟨by simp, by simp, fun j hj => ?_⟩
    rw [List.getElem_append_left hj]
    exact fun h => hi (h ▸ List.getElem_mem hj)
  rw [locate_node, hfirst]

theorem locate_of_not_mem (hi : i ∉ f.childrenOf c) :
    locate c (.node i) f = .error (.notAChild (f.view i)) f := by
  rw [locate_node, List.idxOf?_eq_none_iff.2 hi]

namespace Consistent

/-- A node without a parent is handed over by its new parent alone. -/
theorem withParent_handed (hf : f.Consistent) (hparent : f.parentOf i = none) :
    (f.handed c pre).withParent i (some c) = f.handed c (pre ++ [i]) := by
  refine ext_get? fun j => ?_
  have hchild : ∀ s, f.get? j = some s → i ∉ s.children := by
    intro s hs hmem
    rw [← childrenOf_of_get? hs, hf.mem_childrenOf_iff, hparent] at hmem
    cases hmem
  unfold withParent
  rw [get?_update, get?_handed, get?_handed]
  cases hs : f.get? j with
  | none => exact ite_self _
  | some s =>
    simp only [Option.map_some]
    rw [Slot.release_concat_of_not_mem (hchild s hs)]
    by_cases hji : i = j
    · simp [hji]
    · simp [hji, Ne.symm hji]

/-- A node is taken out where it stands among the children that are left, and handed over. -/
theorem withParent_without_handed {p : NodeId} (hf : f.Consistent) (hpre : i ∉ pre)
    (hp : f.childrenOf p = front ++ i :: back) :
    ((f.handed c pre).without p (front.filter (· ∉ pre)).length
        (front.filter (· ∉ pre)).length i).withParent i (some c) = f.handed c (pre ++ [i]) := by
  have hparent : f.parentOf i = some p := (hf.mem_childrenOf_iff i p).1 (by simp [hp])
  have hip : i ≠ p := fun h => hf.acyclic i (Relation.TransGen.single (h ▸ hparent))
  have hnodup := hf.nodup_childrenOf p
  refine ext_get? fun j => ?_
  unfold without withParent
  rw [get?_update, get?_update, get?_update, get?_handed, get?_handed]
  cases hs : f.get? j with
  | none => simp
  | some s =>
    simp only [Option.map_some]
    by_cases hjp : p = j
    · subst hjp
      have hchildren : s.children = front ++ i :: back := (childrenOf_of_get? hs).symm.trans hp
      rw [if_neg hip, if_neg hip, if_pos rfl, Slot.release_concat hchildren
        (by rwa [← childrenOf_of_get? hs]) hpre]
      simp [Slot.removeAt, Slot.shiftCursors, Ne.symm hip]
    · have hchild : i ∉ s.children := by
        rw [← childrenOf_of_get? hs, hf.mem_childrenOf_iff, hparent]
        exact fun h => hjp (Option.some.inj h)
      rw [Slot.release_concat_of_not_mem hchild, if_neg hjp]
      by_cases hji : i = j
      · simp [hji]
      · simp [hji, Ne.symm hji]

/-- One more node is handed over. -/
theorem handed_concat (hf : f.Consistent) (hpre : i ∉ pre) :
    ∃ g, Forest.remove i (f.handed c pre) = .ok () g ∧
      g.withParent i (some c) = f.handed c (pre ++ [i]) := by
  unfold Forest.remove
  rw [Edit.get_bind_apply, parentOf_handed_of_not_mem f c hpre]
  cases hparent : f.parentOf i with
  | none => exact ⟨f.handed c pre, rfl, hf.withParent_handed hparent⟩
  | some p =>
    obtain ⟨front, back, hp⟩ := List.append_of_mem ((hf.mem_childrenOf_iff i p).2 hparent)
    have hfront : i ∉ front := by
      have hnodup := hf.nodup_childrenOf p
      rw [hp] at hnodup
      exact fun h => (List.nodup_append.1 hnodup).2.2 i h i List.mem_cons_self rfl
    have hleft : (f.handed c pre).childrenOf p =
        front.filter (· ∉ pre) ++ i :: back.filter (· ∉ pre) := by
      rw [childrenOf_handed, hp, List.filter_append, List.filter_cons_of_pos (by simpa using hpre)]
    have hlocate := locate_append hleft fun h => hfront (List.mem_filter.1 h).1
    have hindex : resolveIndex? ((f.handed c pre).childrenOf p).length
        (front.filter (· ∉ pre)).length = some (front.filter (· ∉ pre)).length := by
      rw [hleft]
      simp [resolveIndex?]
      omega
    have hchild : ((f.handed c pre).childrenOf p)[(front.filter (· ∉ pre)).length]? = some i := by
      rw [hleft]
      simp
    exact ⟨_, removeChild_of_locate hlocate hindex hchild, hf.withParent_without_handed hpre hp⟩

/-- Nodes are handed over one by one. -/
theorem adopt_ok (hf : f.Consistent) : ∀ {new pre : List NodeId}, (pre ++ new).Nodup →
    adopt c new (f.handed c pre) = .ok () (f.handed c (pre ++ new))
  | [], pre, _ => by
    rw [List.append_nil]
    rfl
  | i :: new, pre, hnodup => by
    have hpre : i ∉ pre := fun h => (List.nodup_append.1 hnodup).2.2 i h i List.mem_cons_self rfl
    obtain ⟨g, hremove, hg⟩ := hf.handed_concat (c := c) hpre
    rw [List.append_cons] at hnodup
    have hrest := hf.adopt_ok hnodup
    rw [← hg] at hrest
    unfold adopt
    rw [Edit.bind_ok hremove, Edit.bind_ok (Edit.modify_apply _), List.append_cons]
    exact hrest

/-- A node that has been handed over is no child any more when it is handed over again. -/
theorem adopt_error (hf : f.Consistent) : ∀ {new pre : List NodeId}, (∀ i ∈ new, i < f.size) →
    pre.Nodup → ¬(pre ++ new).Nodup →
    ∃ fault mid, mid ≠ [] ∧ mid <+: pre ++ new ∧
      adopt c new (f.handed c pre) = .error fault (f.handed c mid)
  | [], pre, _, hpre, hnodup => by
    rw [List.append_nil] at hnodup
    exact absurd hpre hnodup
  | i :: new, pre, hnew, hpre, hnodup => by
    by_cases hi : i ∈ pre
    · have hparent : (f.handed c pre).parentOf i = some c := by
        rw [parentOf_handed f c (hnew i List.mem_cons_self), if_pos hi]
      have hlost : i ∉ (f.handed c pre).childrenOf c := by
        rw [childrenOf_handed]
        simp [hi]
      have hremove : Forest.remove i (f.handed c pre) =
          .error (.notAChild ((f.handed c pre).view i)) (f.handed c pre) := by
        unfold Forest.remove
        rw [Edit.get_bind_apply, hparent]
        exact Edit.bind_error (locate_of_not_mem hlost) _
      exact ⟨_, pre, List.ne_nil_of_mem hi, List.prefix_append pre _,
        Edit.bind_error hremove _⟩
    · obtain ⟨g, hremove, hg⟩ := hf.handed_concat (c := c) hi
      rw [List.append_cons] at hnodup
      obtain ⟨fault, mid, hmid, hstart, hrest⟩ := hf.adopt_error
        (fun j hj => hnew j (List.mem_cons_of_mem i hj))
        (hpre.append (List.nodup_singleton i) (by simpa using hi)) hnodup
      refine ⟨fault, mid, hmid, by rwa [List.append_cons], ?_⟩
      rw [← hg] at hrest
      unfold adopt
      rw [Edit.bind_ok hremove, Edit.bind_ok (Edit.modify_apply _)]
      exact hrest

theorem adopt_eq (hf : f.Consistent) (hnodup : new.Nodup) :
    adopt c new f = .ok () (f.handed c new) := by
  have h := hf.adopt_ok (c := c) (List.nil_append new ▸ hnodup : ([] ++ new).Nodup)
  rwa [handed_nil] at h

/-- A child that stays is found where the children left put it. -/
theorem locate_handed (hf : f.Consistent) (hchildren : f.childrenOf c = front ++ e :: back)
    (he : e ∉ new) : locate c (.node e) (f.handed c new) =
      .ok ((front.filter (· ∉ new)).length : Int) (f.handed c new) := by
  have hleft : (f.handed c new).childrenOf c =
      front.filter (· ∉ new) ++ e :: back.filter (· ∉ new) := by
    rw [childrenOf_handed, hchildren, List.filter_append,
      List.filter_cons_of_pos (by simpa using he)]
  refine locate_append hleft fun h => ?_
  have hnodup := hf.nodup_childrenOf c
  rw [hchildren] at hnodup
  exact (List.nodup_append.1 hnodup).2.2 e (List.mem_filter.1 h).1 e List.mem_cons_self rfl

/-- Appending takes the nodes over and puts them behind the children that are left. -/
theorem append_eq (hf : f.Consistent) (hnodup : new.Nodup) : Forest.append c new f =
    .ok () ((f.handed c new).update c fun s => { s with children := s.children ++ new }) := by
  unfold Forest.append
  rw [Edit.bind_ok (hf.adopt_eq hnodup)]
  rfl

/-- Inserting before a child takes the nodes over, and then looks for the child. -/
theorem insertBefore_eq {spot : Spot} {index : Int} (hf : f.Consistent) (hnodup : new.Nodup)
    (hlocate : locate c spot (f.handed c new) = .ok index (f.handed c new)) :
    Forest.insertBefore c spot new f =
      .ok () ((f.handed c new).update c (·.insertBefore index new)) := by
  unfold Forest.insertBefore
  rw [Edit.bind_ok (hf.adopt_eq hnodup), Edit.bind_ok hlocate]
  rfl

/-- Inserting behind a child takes the nodes over, and then looks for the child. -/
theorem insertAfter_eq {spot : Spot} {index : Int} (hf : f.Consistent) (hnodup : new.Nodup)
    (hlocate : locate c spot (f.handed c new) = .ok index (f.handed c new)) :
    Forest.insertAfter c spot new f =
      .ok () ((f.handed c new).update c (·.insertAfter index new)) := by
  unfold Forest.insertAfter
  rw [Edit.bind_ok (hf.adopt_eq hnodup), Edit.bind_ok hlocate]
  rfl

end Consistent

/-! ## Where nodes are when they have been moved -/

/-- The nodes `new` are children of `c` now. They are taken from where they were before; all other
nodes have the parent that they had, and stand among their siblings as before. -/
structure Receives (f : Forest) (c : NodeId) (new : List NodeId) (g : Forest) : Prop where
  consistent : g.Consistent
  size_eq : g.size = f.size
  contentOf_eq : ∀ i, g.contentOf i = f.contentOf i
  parentOf_eq : ∀ i, g.parentOf i = if i ∈ new then some c else f.parentOf i
  childrenOf_eq : ∀ d, d ≠ c → g.childrenOf d = (f.childrenOf d).filter (· ∉ new)

/-- Where the nodes go among the children of their new parent is up to the last step of a move. -/
theorem receives_update {a : Slot → Slot} (hnew : f.MayAdopt c new)
    (hcontent : ∀ s, (a s).content = s.content) (hparent : ∀ s, (a s).parent = s.parent)
    (hg : ((f.handed c new).update c a).Consistent) :
    Receives f c new ((f.handed c new).update c a) where
  consistent := hg
  size_eq := (size_update ..).trans (size_handed f c new)
  contentOf_eq i := (contentOf_update hcontent).trans (contentOf_handed f c new i)
  parentOf_eq i := by
    rw [parentOf_update hparent]
    by_cases hi : i ∈ new
    · exact parentOf_handed f c (hnew i hi).1
    · rw [parentOf_handed_of_not_mem f c hi, if_neg hi]
  childrenOf_eq d hd := (childrenOf_update_of_ne hd).trans (childrenOf_handed f c new d)

/-! ## Moving nodes -/

theorem children_insertBefore_append {s : Slot} (hs : s.children = front ++ back)
    (new : List NodeId) :
    (s.insertBefore front.length new).children = front ++ new ++ back := by
  rw [Slot.children_insertBefore, hs, List.take_left, List.drop_left]

namespace Consistent

/-- Nodes that are moved to a container are behind its children, or directly before or behind the
child that is named, in the order in which they are given. -/
theorem moves (hf : f.Consistent) (hc : f.isContainer c = true) (hnew : f.MayAdopt c new)
    (hnodup : new.Nodup) :
    (∃ g, Forest.append c new f = .ok () g ∧ f.Receives c new g ∧
      g.childrenOf c = (f.childrenOf c).filter (· ∉ new) ++ new) ∧
    ∀ e ∈ f.childrenOf c, e ∉ new → ∃ before behind,
      (f.childrenOf c).filter (· ∉ new) = before ++ e :: behind ∧
      (∃ g, Forest.insertBefore c (.node e) new f = .ok () g ∧ f.Receives c new g ∧
        g.childrenOf c = before ++ new ++ e :: behind) ∧
      ∃ g, Forest.insertAfter c (.node e) new f = .ok () g ∧ f.Receives c new g ∧
        g.childrenOf c = before ++ e :: new ++ behind := by
  have hsize : c < (f.handed c new).size := by
    rw [size_handed]
    exact lt_size_of_isContainer hc
  obtain ⟨s, hs⟩ := get?_eq_some_of_lt hsize
  refine ⟨⟨_, hf.append_eq hnodup, ?_, ?_⟩, fun e he hne => ?_⟩
  · exact receives_update hnew (fun _ => rfl) (fun _ => rfl)
      (hf.append hc hnew (hf.append_eq hnodup)).1
  · rw [childrenOf_update_self (r := (· ++ new)) hsize fun _ => rfl, childrenOf_handed]
  -- The child that is named stays in its place among the children that are left.
  · obtain ⟨front, back, hchildren⟩ := List.append_of_mem he
    have hleft : (f.handed c new).childrenOf c =
        front.filter (· ∉ new) ++ e :: back.filter (· ∉ new) := by
      rw [childrenOf_handed, hchildren, List.filter_append,
        List.filter_cons_of_pos (by simpa using hne)]
    have hslot := (childrenOf_of_get? hs).symm.trans hleft
    have hlocate := hf.locate_handed hchildren hne
    have hbefore := hf.insertBefore_eq hnodup hlocate
    have hafter := hf.insertAfter_eq hnodup hlocate
    refine ⟨front.filter (· ∉ new), back.filter (· ∉ new), by rw [← childrenOf_handed f c, hleft],
      ⟨_, hbefore, ?_, ?_⟩, ⟨_, hafter, ?_, ?_⟩⟩
    · exact receives_update hnew (fun _ => rfl) (fun _ => rfl) (hf.insertBefore hc hnew hbefore)
    · rw [childrenOf_of_get? (by rw [get?_update_self, hs]; rfl)]
      exact children_insertBefore_append hslot new
    -- Behind the child is in front of what follows it.
    · exact receives_update hnew (fun _ => rfl) (fun _ => rfl) (hf.insertAfter hc hnew hafter)
    · rw [childrenOf_of_get? (by rw [get?_update_self, hs]; rfl)]
      have hslot' : s.children = (front.filter (· ∉ new) ++ [e]) ++ back.filter (· ∉ new) := by
        rw [hslot, List.append_assoc, List.singleton_append]
      have hsplice := children_insertBefore_append hslot' new
      rw [List.length_append, List.length_singleton] at hsplice
      exact hsplice.trans (by simp)

end Consistent

/-- A stylesheet with two rules and a comment between them. -/
def twoRules : Tree :=
  .node (.root none) {} [.node (.rule "a") {} [.node (.comment "x") {} [],
      .node (.comment "y") {} []],
    .node (.comment "c") {} [], .node (.rule "b") {} [.node (.comment "z") {} []]]

theorem consistent_twoRules : (({} : Forest).plant none twoRules).2.Consistent :=
  consistent_plant (by simp [twoRules, Tree.All, Tree.AllOf, Tree.Branches, Content.isContainer])

/-- A comment is taken from its rule, then the rule itself and a comment from another rule, all of
them to stand before the comment between the rules. -/
theorem moves_twoRules : (({} : Forest).plant none twoRules).2.Consistent ∧ ∃ g,
    Forest.insertBefore 0 (.node 4) [2, 1, 6] (({} : Forest).plant none twoRules).2 = .ok () g ∧
    (({} : Forest).plant none twoRules).2.Receives 0 [2, 1, 6] g ∧
    g.childrenOf 0 = [2, 1, 6, 4, 5] := by
  have hmay : (({} : Forest).plant none twoRules).2.MayAdopt 0 [2, 1, 6] :=
    mayAdopt_of_parentOf (by decide) (by decide)
  obtain ⟨-, hchild⟩ := consistent_twoRules.moves (by decide) hmay (by decide)
  obtain ⟨before, behind, hsplit, ⟨g, hrun, hreceives, hplace⟩, -⟩ :=
    hchild 4 (by decide) (by decide)
  refine ⟨consistent_twoRules, g, hrun, hreceives, ?_⟩
  have hleft : [4, 5] = before ++ 4 :: behind := hsplit
  cases before with
  | nil =>
    rw [List.nil_append] at hleft hplace
    rw [hplace, ← hleft]
    rfl
  | cons i before =>
    have hmem : 4 ∈ [5] := by simp [(List.cons.inj hleft).2]
    exact absurd hmem (by decide)

end Forest

end PixelUnit
