import PixelUnit.Proofs.Forest.Handover

/-!
# Moves that fail

A move fails if a node is handed over twice, or if there is no child where it is told to look
(`Move.Faulty`). Nodes are taken from where they were before either is noticed, and nothing puts
them back: if a move that inserts nodes fails, at least one of them has a new parent that does not
have it among its children (`Consistent.move_fails`). Only a move that inserts nothing leaves a
forest alone when it fails.
-/

namespace PixelUnit

namespace Forest

variable {f g : Forest} {c e : NodeId} {spot : Spot} {new mid : List NodeId}

/-! ## What iterations and neighbours go by -/

/-- The cursors of the iterations over the children of a node. -/
def cursorsOf (f : Forest) (i : NodeId) : List Cursor :=
  ((f.get? i).map Slot.cursors).getD []

/-- Children, parents and the positions of all iterations are the same. -/
structure SameLinks (f g : Forest) : Prop where
  childrenOf_eq : ∀ i, g.childrenOf i = f.childrenOf i
  parentOf_eq : ∀ i, g.parentOf i = f.parentOf i
  cursorsOf_eq : ∀ i, g.cursorsOf i = f.cursorsOf i

theorem SameLinks.refl (f : Forest) : SameLinks f f :=
  ⟨fun _ => rfl, fun _ => rfl, fun _ => rfl⟩

/-- A node has a parent that does not have it among its children. -/
def IsStray (f : Forest) (c i : NodeId) : Prop :=
  f.parentOf i = some c ∧ i ∉ f.childrenOf c

/-- There are no strays in a consistent forest, nor in one with the same links. -/
theorem SameLinks.not_isStray (hfg : SameLinks f g) (hf : f.Consistent) (c i : NodeId) :
    ¬g.IsStray c i := by
  rintro ⟨hparent, hchild⟩
  rw [hfg.parentOf_eq, ← hf.mem_childrenOf_iff] at hparent
  rw [hfg.childrenOf_eq] at hchild
  exact hchild hparent

/-- Nodes that were taken over and put nowhere are strays. -/
theorem isStray_handed (f : Forest) (c : NodeId) {i : NodeId} (hi : i < f.size) (hmem : i ∈ new) :
    (f.handed c new).IsStray c i := by
  refine ⟨by rw [parentOf_handed f c hi, if_pos hmem], fun h => ?_⟩
  rw [childrenOf_handed, List.mem_filter] at h
  exact absurd hmem (by simpa using h.2)

/-! ## What moves fail for -/

/-- The child that is named is none, or is one of the nodes to be inserted. -/
def Missing (f : Forest) (c : NodeId) (new : List NodeId) : Spot → Prop
  | .index _ => False
  | .node e => e ∉ f.childrenOf c ∨ e ∈ new

namespace Move

/-- The node whose children a move is about. -/
def subject : Move → NodeId
  | append c _ | insertBefore c _ _ | insertAfter c _ _ | removeChild c _ => c
  | remove i => i

/-- What is wrong with a move: a node occurs twice among those to be inserted, the child that is
named is missing, or the position is beyond the children. -/
def Faulty (f : Forest) : Move → Prop
  | append _ new => ¬new.Nodup
  | insertBefore c spot new | insertAfter c spot new => ¬new.Nodup ∨ f.Missing c new spot
  | remove _ => False
  | removeChild c (.index n) => n < -((f.childrenOf c).length : Int) ∨ (f.childrenOf c).length ≤ n
  | removeChild c (.node e) => e ∉ f.childrenOf c

end Move

/-- A position is beyond the children if it is too far on either side. -/
theorem resolveIndex?_eq_none_iff {n : Nat} {index : Int} :
    resolveIndex? n index = none ↔ index < -(n : Int) ∨ n ≤ index := by
  unfold resolveIndex?
  dsimp only
  rw [ite_eq_right_iff]
  by_cases hneg : index < 0
  · simp [hneg]
    omega
  · simp [hneg]
    omega

namespace Consistent

/-- A child that is named is found if it is there and is not among the nodes to be inserted. -/
theorem locate_handed_ok (hf : f.Consistent) (hspot : ¬f.Missing c new spot) :
    ∃ index, locate c spot (f.handed c new) = .ok index (f.handed c new) := by
  cases spot with
  | index n => exact ⟨n, rfl⟩
  | node e =>
    obtain ⟨hchild, hnew⟩ := not_or.1 hspot
    obtain ⟨front, back, hchildren⟩ := List.append_of_mem (not_not.1 hchild)
    exact ⟨_, hf.locate_handed hchildren hnew⟩

/-- A child that is missing, or is among the nodes to be inserted, is not found. -/
theorem locate_handed_error (hspot : f.Missing c new spot) :
    ∃ fault, locate c spot (f.handed c new) = .error fault (f.handed c new) := by
  cases spot with
  | index n => exact hspot.elim
  | node e =>
    refine ⟨_, locate_of_not_mem fun h => ?_⟩
    rw [childrenOf_handed, List.mem_filter] at h
    exact hspot.elim (· h.1) fun hnew => absurd hnew (by simpa using h.2)

/-- A child that is there can be removed. -/
theorem removeChild_node (hf : f.Consistent) (he : e ∈ f.childrenOf c) :
    ∃ g, Forest.removeChild c (.node e) f = .ok () g := by
  obtain ⟨front, back, hchildren⟩ := List.append_of_mem he
  have hnodup := hf.nodup_childrenOf c
  rw [hchildren] at hnodup
  have hfront : e ∉ front := fun h =>
    (List.nodup_append.1 hnodup).2.2 e h e List.mem_cons_self rfl
  obtain ⟨k, hk⟩ : ∃ k, resolveIndex? (f.childrenOf c).length front.length = some k := by
    rw [← Option.ne_none_iff_exists', Ne, resolveIndex?_eq_none_iff, hchildren, List.length_append,
      List.length_cons]
    omega
  obtain ⟨hlt, -⟩ := resolveIndex?_eq_some hk
  exact ⟨_, removeChild_of_locate (locate_append hchildren hfront) hk
    (List.getElem?_eq_getElem hlt)⟩

/-- Nothing else can be wrong with a move. -/
theorem perform_ok (hf : f.Consistent) {m : Move} (hm : ¬m.Faulty f) :
    ∃ g, m.perform f = .ok () g := by
  cases m with
  | append c new => exact ⟨_, hf.append_eq (not_not.1 hm)⟩
  | insertBefore c spot new =>
    obtain ⟨hnodup, hspot⟩ := not_or.1 hm
    obtain ⟨index, hlocate⟩ := hf.locate_handed_ok hspot
    exact ⟨_, hf.insertBefore_eq (not_not.1 hnodup) hlocate⟩
  | insertAfter c spot new =>
    obtain ⟨hnodup, hspot⟩ := not_or.1 hm
    obtain ⟨index, hlocate⟩ := hf.locate_handed_ok hspot
    exact ⟨_, hf.insertAfter_eq (not_not.1 hnodup) hlocate⟩
  | remove i =>
    show ∃ g, Forest.remove i f = .ok () g
    unfold Forest.remove
    rw [Edit.get_bind_apply]
    cases hparent : f.parentOf i with
    | none => exact ⟨f, rfl⟩
    | some p => exact hf.removeChild_node ((hf.mem_childrenOf_iff i p).2 hparent)
  | removeChild c spot =>
    cases spot with
    | index n =>
      obtain ⟨k, hk⟩ := Option.ne_none_iff_exists'.1 (mt resolveIndex?_eq_none_iff.1 hm)
      obtain ⟨hlt, -⟩ := resolveIndex?_eq_some hk
      exact ⟨_, removeChild_of_locate rfl hk (List.getElem?_eq_getElem hlt)⟩
    | node e => exact hf.removeChild_node (not_not.1 hm)

/-- A move that fails has handed over some of the nodes that it was to insert. -/
theorem perform_error (hf : f.Consistent) {m : Move} (hnew : ∀ i ∈ m.inserted, i < f.size)
    (hm : m.Faulty f) : ∃ fault mid, mid <+: m.inserted ∧ (mid = [] → m.inserted = []) ∧
      m.perform f = .error fault (f.handed m.subject mid) := by
  have hadopt : ∀ {c : NodeId} {new : List NodeId} {k : Unit → Edit Unit}, (∀ i ∈ new, i < f.size) →
      ¬new.Nodup → ∃ fault mid, mid <+: new ∧ (mid = [] → new = []) ∧
        (adopt c new >>= k) f = .error fault (f.handed c mid) := by
    intro c new k hnew hnodup
    obtain ⟨fault, mid, hne, hstart, hrun⟩ := hf.adopt_error (c := c) hnew List.nodup_nil
      (List.nil_append new ▸ hnodup : ¬([] ++ new).Nodup)
    rw [handed_nil] at hrun
    exact ⟨fault, mid, hstart, fun h => absurd h hne, Edit.bind_error hrun k⟩
  have hinsert : ∀ {c : NodeId} {spot : Spot} {new : List NodeId} {k : Int → Edit Unit},
      (∀ i ∈ new, i < f.size) → ¬new.Nodup ∨ f.Missing c new spot →
        ∃ fault mid, mid <+: new ∧ (mid = [] → new = []) ∧
          (adopt c new >>= fun _ => locate c spot >>= k) f = .error fault (f.handed c mid) := by
    intro c spot new k hnew hfaulty
    by_cases hnodup : new.Nodup
    · obtain ⟨fault, hlocate⟩ := locate_handed_error (hfaulty.resolve_left (not_not.2 hnodup))
      refine ⟨fault, new, List.prefix_refl new, id, ?_⟩
      rw [Edit.bind_ok (hf.adopt_eq hnodup)]
      exact Edit.bind_error hlocate k
    · exact hadopt hnew hnodup
  cases m with
  | append c new => exact hadopt hnew hm
  | insertBefore c spot new => exact hinsert hnew hm
  | insertAfter c spot new => exact hinsert hnew hm
  | remove i => exact hm.elim
  | removeChild c spot =>
    have hfails : ∃ fault, Forest.removeChild c spot f = .error fault f := by
      cases spot with
      | index n => exact ⟨_, removeChild_of_none rfl (resolveIndex?_eq_none_iff.2 hm)⟩
      | node e => exact ⟨_, Edit.bind_error (locate_of_not_mem hm) _⟩
    obtain ⟨fault, hfails⟩ := hfails
    exact ⟨fault, [], List.nil_prefix, fun _ => rfl, by rw [handed_nil]; exact hfails⟩

/-- A move fails just if something is wrong with it. It has then taken nodes from where they were,
the first ones of those to be inserted, and left them between their old parents and the new one: all
links are as before just if there was nothing to insert. -/
theorem move_fails (hf : f.Consistent) (m : Move) (hnew : ∀ i ∈ m.inserted, i < f.size) :
    ((∃ fault g, m.perform f = .error fault g) ↔ m.Faulty f) ∧
    ∀ fault g, m.perform f = .error fault g →
      (∃ mid, mid <+: m.inserted ∧ g = f.handed m.subject mid ∧ ∀ i ∈ mid, g.IsStray m.subject i) ∧
      (SameLinks f g ↔ m.inserted = []) := by
  have hiff : (∃ fault g, m.perform f = .error fault g) ↔ m.Faulty f := by
    refine ⟨fun ⟨fault, g, hfails⟩ => ?_, fun hm => ?_⟩
    · by_contra hm
      obtain ⟨h, hok⟩ := hf.perform_ok hm
      rw [hok] at hfails
      cases hfails
    · obtain ⟨fault, mid, -, -, hfails⟩ := hf.perform_error hnew hm
      exact ⟨fault, _, hfails⟩
  refine ⟨hiff, fun fault g hfails => ?_⟩
  obtain ⟨fault', mid, hstart, hnil, hrun⟩ := hf.perform_error hnew (hiff.1 ⟨fault, g, hfails⟩)
  rw [hfails] at hrun
  obtain ⟨-, rfl⟩ := EStateM.Result.error.inj hrun
  have hstray : ∀ i ∈ mid, (f.handed m.subject mid).IsStray m.subject i := fun i hi =>
    isStray_handed f m.subject (hnew i (hstart.subset hi)) hi
  refine ⟨⟨mid, hstart, rfl, hstray⟩, fun hsame => hnil ?_, fun hnone => ?_⟩
  · refine List.eq_nil_iff_forall_not_mem.2 fun i hi => ?_
    exact hsame.not_isStray hf m.subject i (hstray i hi)
  · rw [hnone, List.prefix_nil] at hstart
    rw [hstart, handed_nil]
    exact SameLinks.refl f

end Consistent

/-- A comment is handed over twice. -/
theorem move_fails_twoRules : ∃ fault g,
    (({} : Forest).plant none twoRules).2.Consistent ∧
    (Move.append 5 [4, 2, 4]).perform (({} : Forest).plant none twoRules).2 = .error fault g ∧
    ¬SameLinks (({} : Forest).plant none twoRules).2 g := by
  obtain ⟨hiff, hlinks⟩ := consistent_twoRules.move_fails (.append 5 [4, 2, 4]) (by decide)
  obtain ⟨fault, g, hfails⟩ := hiff.2 (by decide : ¬[4, 2, 4].Nodup)
  refine ⟨fault, g, consistent_twoRules, hfails, fun h => ?_⟩
  have hnone : [4, 2, 4] = [] := (hlinks fault g hfails).2.1 h
  cases hnone

/-- A rule is to go before a comment that is in another rule. It is lost: the stylesheet does not
have it any more. -/
theorem not_sameLinks_lostRule : ∃ fault g,
    (({} : Forest).plant none twoRules).2.Consistent ∧
    (Move.insertBefore 0 (.node 6) [1]).perform (({} : Forest).plant none twoRules).2 =
      .error fault g ∧
    (({} : Forest).plant none twoRules).2.childrenOf 0 = [1, 4, 5] ∧ g.childrenOf 0 = [4, 5] ∧
    ¬SameLinks (({} : Forest).plant none twoRules).2 g := by
  refine ⟨_, _, consistent_twoRules, rfl, by decide, by decide, fun h => ?_⟩
  have hchildren := h.childrenOf_eq 0
  exact absurd hchildren (by decide)

end Forest

end PixelUnit
