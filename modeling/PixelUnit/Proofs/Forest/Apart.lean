import PixelUnit.Proofs.Forest.Additions
import PixelUnit.Proofs.Forest.Failures

/-!
# Two sides of a forest

The nodes of a forest stand on two sides, and no link leads from one to the other
(`Forest.Apart`). A change of nodes of one side then leaves all nodes of the other as they are, and
the sides stay apart (`Change.within`), whether the change succeeds or fails. So whatever happens on
one side in a course of changes, none of it can be seen on the other (`Apart.view_runAll`).
-/

namespace PixelUnit

open Sheet

namespace Forest

variable {S T : NodeId → Prop} {f g h : Forest} {c i : NodeId}

/-- Parents and children of nodes of a side are on that side. -/
structure Apart (S : NodeId → Prop) (f : Forest) : Prop where
  parent_iff : ∀ i s p, f.get? i = some s → s.parent = some p → (S p ↔ S i)
  child_iff : ∀ i s j, f.get? i = some s → j ∈ s.children → (S j ↔ S i)

/-- The other side is apart as well. -/
theorem Apart.congr (hf : Apart S f) (h : ∀ i, T i ↔ ¬S i) : Apart T f where
  parent_iff i s p hs hp := by rw [h, h, hf.parent_iff i s p hs hp]
  child_iff i s j hs hj := by rw [h, h, hf.child_iff i s j hs hj]

/-- Only nodes of a side differ, and the sides are apart. -/
structure ChangedWithin (S : NodeId → Prop) (f g : Forest) : Prop where
  size_eq : g.size = f.size
  get?_eq : ∀ i, ¬S i → g.get? i = f.get? i
  apart : Apart S g

namespace ChangedWithin

theorem refl (hf : Apart S f) : ChangedWithin S f f :=
  ⟨rfl, fun _ _ => rfl, hf⟩

theorem trans (hfg : ChangedWithin S f g) (hgh : ChangedWithin S g h) : ChangedWithin S f h where
  size_eq := hgh.size_eq.trans hfg.size_eq
  get?_eq i hi := (hgh.get?_eq i hi).trans (hfg.get?_eq i hi)
  apart := hgh.apart

/-- What stays on a side does so step by step. -/
theorem bind {α β : Type} {x : Edit α} {k : α → Edit β} (hx : ChangedWithin S f (x.left f))
    (hk : ∀ a g, x f = .ok a g → Apart S g → ChangedWithin S g ((k a).left g)) :
    ChangedWithin S f ((x >>= k).left f) := by
  refine Edit.left_bind_induction (P := ChangedWithin S f) (fun e g h => ?_) fun a g h => ?_
  · rwa [Edit.left_error h] at hx
  · rw [Edit.left_ok h] at hx
    exact hx.trans (hk a g h hx.apart)

/-- One node of a side gets links to nodes of that side. -/
theorem update (hf : Apart S f) (hc : S c) {a : Slot → Slot}
    (hparent : ∀ s p, f.get? c = some s → (a s).parent = some p → S p)
    (hchildren : ∀ s j, f.get? c = some s → j ∈ (a s).children → S j) :
    ChangedWithin S f (f.update c a) where
  size_eq := size_update f c a
  get?_eq i hi := get?_update_of_ne a fun h => hi (h ▸ hc)
  apart := by
    constructor
    · intro i t p ht hp
      rw [get?_update] at ht
      split at ht
      · next hci =>
        subst hci
        obtain ⟨s, hs, rfl⟩ := Option.map_eq_some_iff.1 ht
        exact iff_of_true (hparent s p hs hp) hc
      · exact hf.parent_iff i t p ht hp
    · intro i t j ht hj
      rw [get?_update] at ht
      split at ht
      · next hci =>
        subst hci
        obtain ⟨s, hs, rfl⟩ := Option.map_eq_some_iff.1 ht
        exact iff_of_true (hchildren s j hs hj) hc
      · exact hf.child_iff i t j ht hj

/-- One node of a side changes, but for its links. -/
theorem update_of_links (hf : Apart S f) (hc : S c) {a : Slot → Slot}
    (hparent : ∀ s, (a s).parent = s.parent) (hchildren : ∀ s, (a s).children = s.children) :
    ChangedWithin S f (f.update c a) :=
  update hf hc (fun s p hs hp => (hf.parent_iff c s p hs (hparent s ▸ hp)).2 hc)
    fun s j hs hj => (hf.child_iff c s j hs (hchildren s ▸ hj)).2 hc

theorem withParent (hf : Apart S f) (hi : S i) {q : Option NodeId} (hq : ∀ p, q = some p → S p) :
    ChangedWithin S f (f.withParent i q) :=
  update hf hi (fun _ p _ hp => hq p hp) fun s j hs hj => (hf.child_iff i s j hs hj).2 hi

/-- A node of a side gets other children from that side. -/
theorem update_children (hf : Apart S f) (hc : S c) {a : Slot → Slot} {new : List NodeId}
    (hnew : ∀ j ∈ new, S j) (hparent : ∀ s, (a s).parent = s.parent)
    (hchildren : ∀ s, ∀ j ∈ (a s).children, j ∈ s.children ∨ j ∈ new) :
    ChangedWithin S f (f.update c a) :=
  update hf hc (fun s p hs hp => (hf.parent_iff c s p hs (hparent s ▸ hp)).2 hc)
    fun s j hs hj => (hchildren s j hj).elim (fun h => (hf.child_iff c s j hs h).2 hc) (hnew j)

/-- Taking a child from a node of a side changes only that side, also if it fails. -/
theorem removeChild (hf : Apart S f) (hc : S c) (spot : Spot) :
    ChangedWithin S f ((removeChild c spot).left f) := by
  cases hlocate : locate c spot f with
  | error e g =>
    have hfails : Forest.removeChild c spot f = .error e g := Edit.bind_error hlocate _
    rw [Edit.left_error hfails, ← Edit.left_error hlocate, left_locate]
    exact .refl hf
  | ok index g =>
    obtain ⟨rfl, -⟩ := locate_ok hlocate
    cases hindex : resolveIndex? (g.childrenOf c).length index with
    | none =>
      rw [Edit.left_error (removeChild_of_none hlocate hindex)]
      exact .refl hf
    | some k =>
      obtain ⟨hlt, -⟩ := resolveIndex?_eq_some hindex
      obtain ⟨j, hchild⟩ : ∃ j, (g.childrenOf c)[k]? = some j := ⟨_, List.getElem?_eq_getElem hlt⟩
      obtain ⟨s, hs⟩ := get?_eq_some_of_lt (lt_size_of_mem_childrenOf (List.mem_of_getElem? hchild))
      have hj : S j := by
        refine (hf.child_iff c s j hs ?_).2 hc
        rw [← childrenOf_of_get? hs]
        exact List.mem_of_getElem? hchild
      rw [Edit.left_ok (removeChild_of_locate hlocate hindex hchild)]
      have hnone : ∀ j ∈ ([] : List NodeId), S j := List.forall_mem_nil _
      have hout : ChangedWithin S g (g.update c (·.removeAt k index)) :=
        update_children hf hc hnone (fun _ => rfl) fun t l hl =>
          Or.inl (List.mem_of_mem_eraseIdx hl)
      exact hout.trans (withParent hout.apart hj nofun)

/-- Taking a node of a side from its parent changes only that side. -/
theorem remove (hf : Apart S f) (hi : S i) : ChangedWithin S f ((remove i).left f) := by
  rw [Edit.left, Forest.remove, Edit.get_bind_apply]
  cases hp : f.parentOf i with
  | none => exact .refl hf
  | some p =>
    obtain ⟨s, hs, hparent⟩ := Option.bind_eq_some_iff.1 hp
    exact removeChild hf ((hf.parent_iff i s p hs hparent).2 hi) (.node i)

/-- Taking nodes of a side over to a node of that side changes only that side. -/
theorem adopt (hc : S c) : ∀ {new : List NodeId} {f : Forest}, Apart S f → (∀ i ∈ new, S i) →
    ChangedWithin S f ((adopt c new).left f)
  | [], f, hf, _ => .refl hf
  | i :: new, f, hf, hnew => by
    have hi := hnew i List.mem_cons_self
    unfold Forest.adopt
    refine bind (remove hf hi) fun _ g _ hg => bind ?_ fun _ h _ hh =>
      adopt hc hh fun j hj => hnew j (List.mem_cons_of_mem i hj)
    exact withParent hg hi fun p hp => Option.some.inj hp ▸ hc

/-- Nodes of a side are handed to a container there, and put in at a place. -/
theorem adopt_locate (hf : Apart S f) (hc : S c) {new : List NodeId} (hnew : ∀ i ∈ new, S i)
    (spot : Spot) {k : Int → Slot → Slot} (hparent : ∀ n s, (k n s).parent = s.parent)
    (hchildren : ∀ n s, ∀ j ∈ (k n s).children, j ∈ s.children ∨ j ∈ new) :
    ChangedWithin S f (Edit.left (do
      Forest.adopt c new
      let index ← locate c spot
      modify fun f => f.update c (k index)) f) := by
  refine bind (adopt hc hf hnew) fun _ g _ hg => bind ?_ fun n h _ hh => ?_
  · rw [left_locate]
    exact .refl hg
  · exact update_children hh hc hnew (hparent n) (hchildren n)

end ChangedWithin

theorem mem_spliceAt {ds new : List NodeId} {n : Int} {j : NodeId} (hj : j ∈ spliceAt ds n new) :
    j ∈ ds ∨ j ∈ new := by
  have := (Consistent.spliceAt_perm ds n new).mem_iff.1 hj
  simpa using this

/-! ## Changes -/

/-- A change of what nodes say, of how they are written or of where they stand. -/
inductive Change where
  | setAttribute (i : NodeId) (a : Attribute)
  | setRaws (i : NodeId) (change : Raws → Raws)
  | move (m : Move)

namespace Change

/-- Makes a change. -/
def perform : Change → Edit Unit
  | setAttribute i a => Forest.setAttribute i a
  | setRaws i change => Forest.setRaws i change
  | move m => m.perform

/-- The nodes that are changed or moved, and those they are moved to, are on a side. -/
def On (S : NodeId → Prop) : Change → Prop
  | setAttribute i _ | setRaws i _ => S i
  | move m => S m.subject ∧ ∀ i ∈ m.inserted, S i

/-- A change on a side stays there, whether it succeeds or fails. -/
theorem within {a : Change} (ha : a.On S) (hf : Apart S f) :
    ChangedWithin S f (a.perform.left f) := by
  cases a with
  | setAttribute i a =>
    have hkeeps : ∀ s : Slot, (s.set a).shape = s.shape := fun s => (keeps_set s a).shape
    exact .update_of_links hf ha (fun s => congrArg (·.1) (hkeeps s))
      fun s => congrArg (·.2.1) (hkeeps s)
  | setRaws i change => exact .update_of_links hf ha (fun _ => rfl) fun _ => rfl
  | move m =>
    obtain ⟨hc, hnew⟩ := ha
    cases m with
    | append c new =>
      refine .bind (.adopt hc hf hnew) fun _ g _ hg =>
        .update_children hg hc hnew (fun _ => rfl) fun s j hj => List.mem_append.1 hj
    | insertBefore c spot new =>
      exact .adopt_locate hf hc hnew spot (fun _ _ => rfl) fun _ _ _ => mem_spliceAt
    | insertAfter c spot new =>
      exact .adopt_locate hf hc hnew spot (fun _ _ => rfl) fun _ _ _ => mem_spliceAt
    | remove i => exact .remove hf hc
    | removeChild c spot => exact .removeChild hf hc spot

/-- Makes changes one after the other, going on behind one that fails. -/
def runAll (as : List Change) (f : Forest) : Forest :=
  as.foldl (fun g a => a.perform.left g) f

end Change

theorem ChangedWithin.runAll : ∀ {as : List Change} {f : Forest}, (∀ a ∈ as, a.On S) →
    Apart S f → ChangedWithin S f (Change.runAll as f)
  | [], f, _, hf => .refl hf
  | a :: as, f, has, hf => by
    have hfirst := Change.within (has a List.mem_cons_self) hf
    exact hfirst.trans (ChangedWithin.runAll (fun b hb => has b (List.mem_cons_of_mem a hb))
      hfirst.apart)

/-- Changes on either side leave the sides apart. -/
theorem Apart.runAll : ∀ {as : List Change} {f : Forest},
    (∀ a ∈ as, a.On S ∨ a.On (¬S ·)) → Apart S f → Apart S (Change.runAll as f)
  | [], f, _, hf => hf
  | a :: as, f, has, hf => by
    have hrest : ∀ b ∈ as, b.On S ∨ b.On (¬S ·) := fun b hb => has b (List.mem_cons_of_mem a hb)
    have hfirst : Apart S (a.perform.left f) := by
      rcases has a List.mem_cons_self with ha | ha
      · exact (Change.within ha hf).apart
      · exact (Change.within ha (hf.congr fun _ => Iff.rfl)).apart.congr fun i => not_not.symm
    show Apart S (Change.runAll as (a.perform.left f))
    exact Apart.runAll hrest hfirst

/-! ## What is seen -/

/-- What is seen below a node of a side are nodes of that side. -/
theorem Apart.viewTo_eq (hf : Apart S f) (h : ∀ i, S i → g.get? i = f.get? i) :
    ∀ (depth : Nat) {i : NodeId}, S i → g.viewTo depth i = f.viewTo depth i
  | 0, _, _ => rfl
  | depth + 1, i, hi => by
    rw [viewTo, viewTo, h i hi]
    cases hs : f.get? i with
    | none => rfl
    | some s =>
      refine congrArg (Sheet.Tree.node s.content s.raws) (List.map_congr_left fun j hj => ?_)
      exact hf.viewTo_eq h depth ((hf.child_iff i s j hs hj).2 hi)

/-- No change on one side can be seen on the other. -/
theorem Apart.view_runAll (hf : Apart S f) {as : List Change} (has : ∀ a ∈ as, a.On S)
    (hi : ¬S i) : (Change.runAll as f).view i = f.view i := by
  have hwithin := ChangedWithin.runAll has hf
  have hother : Apart (¬S ·) f := hf.congr fun _ => Iff.rfl
  rw [view, view, hwithin.size_eq]
  exact hother.viewTo_eq hwithin.get?_eq (f.size + 1) hi

end Forest

end PixelUnit
