import PixelUnit.Proofs.Forest.Growing

/-!
# Moving nodes

Nodes are taken out of a forest and put in at other places, and it stays consistent. A node that is
handed to a container is taken from its parent and gets the container as its parent before it is
one of its children: while nodes are on their way, parents and children say the same of all others
(`Forest.Adopting`). No node comes to lie below itself unless a container is handed itself or a node
above it (`Adopting.reparent`).
-/

namespace PixelUnit

open Sheet

namespace Edit

variable {α β : Type} {f g : Forest}

/-- What succeeds in two steps succeeds in the first and then in the second. -/
theorem exists_of_bind_ok {x : Edit α} {k : α → Edit β} {b : β} (h : (x >>= k) f = .ok b g) :
    ∃ a e, x f = .ok a e ∧ k a e = .ok b g := by
  cases hx : x f with
  | ok a e =>
    rw [bind_ok hx] at h
    exact ⟨a, e, rfl, h⟩
  | error fault e =>
    have hfails : (x >>= k) f = .error fault e := by
      show EStateM.bind x k f = _
      rw [EStateM.bind, hx]
    rw [hfails] at h
    cases h

end Edit

namespace Forest

variable {f g : Forest} {c d i j p : NodeId} {pending : List NodeId}

/-! ## Changing one node -/

section Update

variable {a : Slot → Slot}

/-- A change that leaves contents alone leaves them alone everywhere. -/
theorem contentOf_update (ha : ∀ s, (a s).content = s.content) :
    (f.update c a).contentOf i = f.contentOf i := by
  unfold contentOf
  rw [get?_update]
  split
  · rw [Option.map_map]
    exact Option.map_congr fun s _ => ha s
  · rfl

theorem isContainer_update (ha : ∀ s, (a s).content = s.content) :
    (f.update c a).isContainer i = f.isContainer i := by
  unfold isContainer
  rw [contentOf_update ha]

/-- A change that leaves parents alone leaves them alone everywhere. -/
theorem parentOf_update (ha : ∀ s, (a s).parent = s.parent) :
    (f.update c a).parentOf i = f.parentOf i := by
  unfold parentOf
  rw [get?_update]
  split
  · cases f.get? i with
    | none => rfl
    | some s => exact ha s
  · rfl

/-- A change that leaves children alone leaves them alone everywhere. -/
theorem childrenOf_update (ha : ∀ s, (a s).children = s.children) :
    (f.update c a).childrenOf d = f.childrenOf d := by
  unfold childrenOf
  rw [get?_update]
  split
  · rw [Option.map_map]
    exact congrArg (Option.getD · []) (Option.map_congr fun s _ => ha s)
  · rfl

/-- A change of the children of one node, seen from that node. -/
theorem childrenOf_update_self {r : List NodeId → List NodeId} (hc : c < f.size)
    (ha : ∀ s, (a s).children = r s.children) :
    (f.update c a).childrenOf c = r (f.childrenOf c) := by
  obtain ⟨s, hs⟩ := get?_eq_some_of_lt hc
  unfold childrenOf
  rw [get?_update_self, hs]
  exact ha s

theorem childrenOf_update_of_ne (hdc : d ≠ c) : (f.update c a).childrenOf d = f.childrenOf d := by
  unfold childrenOf
  rw [get?_update_of_ne a (Ne.symm hdc)]

end Update

/-- The forest with a node that has a given parent, as the node itself says. -/
def withParent (f : Forest) (i : NodeId) (q : Option NodeId) : Forest :=
  f.update i fun s => { s with parent := q }

/-- The parents of nodes when one of them has been given a parent. -/
theorem parentOf_withParent (hi : i < f.size) (q : Option NodeId) (j : NodeId) :
    (f.withParent i q).parentOf j = if j = i then q else f.parentOf j := by
  unfold withParent parentOf
  rw [get?_update]
  by_cases hji : j = i
  · obtain ⟨s, hs⟩ := get?_eq_some_of_lt hi
    rw [if_pos hji.symm, if_pos hji, hji, hs]
    rfl
  · rw [if_neg (Ne.symm hji), if_neg hji]

theorem childrenOf_withParent (f : Forest) (i : NodeId) (q : Option NodeId) (d : NodeId) :
    (f.withParent i q).childrenOf d = f.childrenOf d :=
  childrenOf_update fun _ => rfl

theorem contentOf_withParent (f : Forest) (i : NodeId) (q : Option NodeId) (j : NodeId) :
    (f.withParent i q).contentOf j = f.contentOf j :=
  contentOf_update fun _ => rfl

theorem size_withParent (f : Forest) (i : NodeId) (q : Option NodeId) :
    (f.withParent i q).size = f.size :=
  size_update ..

/-- The forest with child number `k` of a container, the node `i`, taken out. -/
def without (f : Forest) (p : NodeId) (k : Nat) (index : Int) (i : NodeId) : Forest :=
  (f.update p (·.removeAt k index)).withParent i none

theorem size_without (f : Forest) (p : NodeId) (k : Nat) (index : Int) (i : NodeId) :
    (f.without p k index i).size = f.size := by
  unfold without
  rw [size_withParent, size_update]

theorem contentOf_without (f : Forest) (p : NodeId) (k : Nat) (index : Int) (i j : NodeId) :
    (f.without p k index i).contentOf j = f.contentOf j := by
  unfold without
  rw [contentOf_withParent, contentOf_update (a := (·.removeAt k index)) fun _ => rfl]

/-- A child that is taken out has no parent, and all other nodes have theirs. -/
theorem parentOf_without (hi : i < f.size) (p : NodeId) (k : Nat) (index : Int) (j : NodeId) :
    (f.without p k index i).parentOf j = if j = i then none else f.parentOf j := by
  unfold without
  rw [parentOf_withParent (by rwa [size_update]),
    parentOf_update (a := (·.removeAt k index)) fun _ => rfl]

/-- The children of nodes when one child of a container has been taken out. -/
theorem childrenOf_without (hp : p < f.size) (k : Nat) (index : Int) (i d : NodeId) :
    (f.without p k index i).childrenOf d =
      if d = p then (f.childrenOf p).eraseIdx k else f.childrenOf d := by
  unfold without
  rw [childrenOf_withParent]
  split
  · next h =>
    rw [h, childrenOf_update_self (r := (·.eraseIdx k)) hp fun _ => rfl]
  · next h => exact childrenOf_update_of_ne h

/-- The nodes are the same, and only parents of nodes that satisfy `S` differ. -/
structure Rearranged (f : Forest) (S : NodeId → Prop) (g : Forest) : Prop where
  size_eq : g.size = f.size
  contentOf_eq : ∀ i, g.contentOf i = f.contentOf i
  parentOf_eq : ∀ i, ¬S i → g.parentOf i = f.parentOf i

namespace Rearranged

variable {S T : NodeId → Prop}

theorem refl (f : Forest) (S : NodeId → Prop) : Rearranged f S f :=
  ⟨rfl, fun _ => rfl, fun _ _ => rfl⟩

/-- What moves some nodes and then others moves both. -/
theorem trans {e : Forest} (hfg : Rearranged f S g) (hge : Rearranged g T e) :
    Rearranged f (fun i => S i ∨ T i) e where
  size_eq := hge.size_eq.trans hfg.size_eq
  contentOf_eq i := (hge.contentOf_eq i).trans (hfg.contentOf_eq i)
  parentOf_eq i hi :=
    (hge.parentOf_eq i fun h => hi (Or.inr h)).trans (hfg.parentOf_eq i fun h => hi (Or.inl h))

theorem mono (hfg : Rearranged f S g) (h : ∀ i, S i → T i) : Rearranged f T g :=
  ⟨hfg.size_eq, hfg.contentOf_eq, fun i hi => hfg.parentOf_eq i fun hS => hi (h i hS)⟩

theorem isContainer_eq (hfg : Rearranged f S g) (i : NodeId) :
    g.isContainer i = f.isContainer i := by
  unfold isContainer
  rw [hfg.contentOf_eq]

/-- What is above a node stays above it if the node and all that is above it keep their parents. -/
theorem isBelow (hfg : Rearranged f (· = i) g) (hc : i ≠ c) (hci : ¬f.IsBelow c i)
    (h : g.IsBelow c d) : f.IsBelow c d := by
  induction h with
  | single hcd => exact Relation.TransGen.single ((hfg.parentOf_eq c (Ne.symm hc)).symm.trans hcd)
  | @tail b d _ hbd ih =>
    have hb : b ≠ i := fun h => hci (h ▸ ih)
    exact ih.tail ((hfg.parentOf_eq b hb).symm.trans hbd)

end Rearranged

/-- Giving a node a parent concerns that node only. -/
theorem rearranged_withParent (hi : i < f.size) (q : Option NodeId) :
    Rearranged f (· = i) (f.withParent i q) where
  size_eq := size_withParent f i q
  contentOf_eq := contentOf_withParent f i q
  parentOf_eq j hj := by rw [parentOf_withParent hi, if_neg hj]

/-- Taking a child out concerns that child only. -/
theorem rearranged_without (hi : i < f.size) (p : NodeId) (k : Nat) (index : Int) :
    Rearranged f (· = i) (f.without p k index i) where
  size_eq := size_without f p k index i
  contentOf_eq := contentOf_without f p k index i
  parentOf_eq j hj := by rw [parentOf_without hi, if_neg hj]

/-- What lies below a node when `i` has got the parent `c` did so before, or the way up leads from
`i` to `c`. -/
theorem isBelow_of_withParent (hi : i < f.size) {a b : NodeId}
    (h : (f.withParent i (some c)).IsBelow a b) :
    f.IsBelow a b ∨ (i = a ∨ (f.withParent i (some c)).IsBelow a i) ∧
      (c = b ∨ (f.withParent i (some c)).IsBelow c b) := by
  have hlink : ∀ {x y : NodeId}, (f.withParent i (some c)).HangsFrom x y →
      x = i ∧ y = c ∨ f.HangsFrom x y := by
    intro x y hxy
    have hparent := (parentOf_withParent hi (some c) x).symm.trans hxy
    split at hparent
    · next hx => exact Or.inl ⟨hx, (Option.some.inj hparent).symm⟩
    · exact Or.inr hparent
  induction h with
  | single hab =>
    rcases hlink hab with ⟨rfl, rfl⟩ | h
    · exact Or.inr ⟨Or.inl rfl, Or.inl rfl⟩
    · exact Or.inl (Relation.TransGen.single h)
  | @tail x y hax hxy ih =>
    rcases hlink hxy with ⟨rfl, rfl⟩ | h
    · exact Or.inr ⟨Or.inr hax, Or.inl rfl⟩
    · rcases ih with ih | ⟨hai, rfl | hcx⟩
      · exact Or.inl (ih.tail h)
      · exact Or.inr ⟨hai, Or.inr (Relation.TransGen.single hxy)⟩
      · exact Or.inr ⟨hai, Or.inr (hcx.tail hxy)⟩

/-! ## Nodes on their way -/

/-- Parents and children say the same, except that the nodes `pending` are not yet among the
children of their new parent `c`. -/
structure Adopting (f : Forest) (c : NodeId) (pending : List NodeId) : Prop where
  mem_childrenOf_iff : ∀ i d, i ∈ f.childrenOf d ↔ f.parentOf i = some d ∧ i ∉ pending
  parentOf_pending : ∀ i ∈ pending, f.parentOf i = some c
  nodup_pending : pending.Nodup
  nodup_childrenOf : ∀ d, (f.childrenOf d).Nodup
  isContainer_of_mem : ∀ i d, i ∈ f.childrenOf d → f.isContainer d = true
  acyclic : ∀ i, ¬f.IsBelow i i
  keysGiven : f.KeysGiven

/-- Nothing is on its way in a consistent forest. -/
theorem adopting_nil_iff : f.Adopting c [] ↔ f.Consistent := by
  constructor
  · intro h
    exact ⟨by simpa using h.mem_childrenOf_iff, h.nodup_childrenOf, h.isContainer_of_mem,
      h.acyclic, h.keysGiven⟩
  · intro h
    exact ⟨by simpa using h.mem_childrenOf_iff, by simp, List.nodup_nil, h.nodup_childrenOf,
      h.isContainer_of_mem, h.acyclic, h.keysGiven⟩

/-- Erasing a position of a list without repetitions erases the node there. -/
theorem mem_eraseIdx_iff {k : Nat} {ds : List NodeId} (hds : ds.Nodup) (hk : ds[k]? = some i) :
    j ∈ ds.eraseIdx k ↔ j ≠ i ∧ j ∈ ds := by
  obtain ⟨hlt, rfl⟩ := List.getElem?_eq_some_iff.1 hk
  rw [← hds.erase_getElem k hlt, hds.mem_erase_iff]

namespace Adopting

/-- The children that are left when one child has been taken out. -/
theorem mem_childrenOf_without {k : Nat} (hf : f.Adopting c pending)
    (hk : (f.childrenOf p)[k]? = some i) (index : Int) (j d : NodeId) :
    j ∈ (f.without p k index i).childrenOf d ↔ j ≠ i ∧ j ∈ f.childrenOf d := by
  have hmem : i ∈ f.childrenOf p := List.mem_of_getElem? hk
  rw [childrenOf_without (lt_size_of_mem_childrenOf hmem)]
  split
  · next h => rw [h, mem_eraseIdx_iff (hf.nodup_childrenOf p) hk]
  · next h =>
    refine (and_iff_right_of_imp fun hj hji => h ?_).symm
    rw [hji, hf.mem_childrenOf_iff, ((hf.mem_childrenOf_iff i p).1 hmem).1] at hj
    exact (Option.some.inj hj.1).symm

/-- A child is taken out. -/
theorem without {k : Nat} (hf : f.Adopting c pending) (hk : (f.childrenOf p)[k]? = some i)
    (index : Int) : (f.without p k index i).Adopting c pending := by
  have hmem : i ∈ f.childrenOf p := List.mem_of_getElem? hk
  obtain ⟨hparent, hpending⟩ := (hf.mem_childrenOf_iff i p).1 hmem
  have hparentOf := parentOf_without (lt_size_of_parentOf hparent) p k index
  have hmem' := hf.mem_childrenOf_without hk index
  constructor
  case mem_childrenOf_iff =>
    intro j d
    rw [hmem', hparentOf, hf.mem_childrenOf_iff]
    by_cases hji : j = i
    · simp [hji]
    · simp [hji]
  case parentOf_pending =>
    intro j hj
    rw [hparentOf, if_neg fun h : j = i => hpending (h ▸ hj)]
    exact hf.parentOf_pending j hj
  case nodup_pending => exact hf.nodup_pending
  case nodup_childrenOf =>
    intro d
    rw [childrenOf_without (lt_size_of_mem_childrenOf hmem)]
    split
    · exact (hf.nodup_childrenOf p).eraseIdx k
    · exact hf.nodup_childrenOf d
  case isContainer_of_mem =>
    intro j d hj
    rw [(rearranged_without (lt_size_of_parentOf hparent) p k index).isContainer_eq]
    exact hf.isContainer_of_mem j d ((hmem' j d).1 hj).2
  case acyclic =>
    -- The node that is taken out has no parent any more; all other ways up are old ones.
    refine fun j hj => hf.acyclic j (Relation.TransGen.mono (fun a b hab => ?_) j j hj)
    have hab' := (hparentOf a).symm.trans hab
    split at hab'
    · cases hab'
    · exact hab'
  case keysGiven =>
    refine KeysGiven.update (hf.keysGiven.update fun s hs => ?_) fun s hs => hs
    exact keysGiven_shiftCursors { s with children := _ } hs _ _

/-- With a parent that is not below it, a node is still not below itself. -/
theorem acyclic_withParent (hf : f.Adopting c pending) (hi : i < f.size) (hic : i ≠ c)
    (hci : ¬f.IsBelow c i) (j : NodeId) : ¬(f.withParent i (some c)).IsBelow j j := by
  intro hj
  -- a circle would lead from `i` to `c` and from there back to `i`, as it did before
  rcases isBelow_of_withParent hi hj with h | ⟨hji, hcj⟩
  · exact hf.acyclic j h
  · have hback : c = i ∨ (f.withParent i (some c)).IsBelow c i := by
      rcases hcj with rfl | hcj
      · exact hji.imp_left Eq.symm
      · rcases hji with rfl | hji
        · exact Or.inr hcj
        · exact Or.inr (hcj.trans hji)
    rcases hback with h | h
    · exact hic h.symm
    · exact hci ((rearranged_withParent hi (some c)).isBelow hic hci h)

/-- A node without a parent gets one that is neither the node itself nor below it. -/
theorem withParent (hf : f.Adopting c pending) (hi : i < f.size) (hnone : f.parentOf i = none)
    (hic : i ≠ c) (hci : ¬f.IsBelow c i) :
    (f.withParent i (some c)).Adopting c (pending ++ [i]) := by
  have hrearranged := rearranged_withParent hi (some c)
  have hparentOf := parentOf_withParent hi (some c)
  have hpending : i ∉ pending := by
    intro hmem
    rw [hf.parentOf_pending i hmem] at hnone
    cases hnone
  have hchildren := childrenOf_withParent f i (some c)
  constructor
  case mem_childrenOf_iff =>
    intro j d
    rw [hchildren, hparentOf, hf.mem_childrenOf_iff]
    by_cases hji : j = i
    · simp [hji, hnone]
    · simp [hji]
  case parentOf_pending =>
    intro j hj
    rw [hparentOf]
    rcases List.mem_append.1 hj with hj | hj
    · rw [if_neg fun h : j = i => hpending (h ▸ hj)]
      exact hf.parentOf_pending j hj
    · rw [if_pos (List.mem_singleton.1 hj)]
  case nodup_pending =>
    rw [List.nodup_append]
    refine ⟨hf.nodup_pending, List.nodup_singleton i, ?_⟩
    rintro j hj k hk rfl
    exact hpending (List.mem_singleton.1 hk ▸ hj)
  case nodup_childrenOf =>
    intro d
    rw [hchildren]
    exact hf.nodup_childrenOf d
  case isContainer_of_mem =>
    intro j d hj
    rw [hrearranged.isContainer_eq]
    rw [hchildren] at hj
    exact hf.isContainer_of_mem j d hj
  case acyclic => exact hf.acyclic_withParent hi hic hci
  case keysGiven => exact hf.keysGiven.update fun s hs => hs

/-- What is on its way arrives: the container has the nodes among its children. -/
theorem arrive (hf : f.Adopting c pending) (hcontainer : f.isContainer c = true)
    {a : Slot → Slot} (hcontent : ∀ s, (a s).content = s.content)
    (hparent : ∀ s, (a s).parent = s.parent) (hkeys : (f.update c a).KeysGiven)
    (hchildren : ((f.update c a).childrenOf c).Perm (f.childrenOf c ++ pending)) :
    (f.update c a).Consistent := by
  -- A child is one that was there already or one that has just arrived; both name the container.
  have hmem : ∀ i d, i ∈ (f.update c a).childrenOf d ↔ f.parentOf i = some d := by
    intro i d
    by_cases hd : d = c
    · rw [hd, hchildren.mem_iff, List.mem_append, hf.mem_childrenOf_iff]
      constructor
      · rintro (h | h)
        · exact h.1
        · exact hf.parentOf_pending i h
      · intro h
        by_cases hi : i ∈ pending
        · exact Or.inr hi
        · exact Or.inl ⟨h, hi⟩
    · rw [childrenOf_update_of_ne hd, hf.mem_childrenOf_iff]
      refine and_iff_left_of_imp fun hparent hi => hd ?_
      rw [hf.parentOf_pending i hi] at hparent
      exact (Option.some.inj hparent).symm
  have hdisjoint : ∀ i ∈ f.childrenOf c, i ∉ pending := fun i hi =>
    ((hf.mem_childrenOf_iff i c).1 hi).2
  refine ⟨fun i d => ?_, fun d => ?_, fun i d hi => ?_, fun i hi => ?_, hkeys⟩
  · rw [hmem, parentOf_update hparent]
  · by_cases hd : d = c
    · rw [hd, hchildren.nodup_iff, List.nodup_append]
      exact ⟨hf.nodup_childrenOf c, hf.nodup_pending, fun i hi j hj hij =>
        hdisjoint i hi (hij ▸ hj)⟩
    · rw [childrenOf_update_of_ne hd]
      exact hf.nodup_childrenOf d
  · rw [isContainer_update hcontent]
    by_cases hd : d = c
    · rw [hd]
      exact hcontainer
    · rw [childrenOf_update_of_ne hd] at hi
      exact hf.isContainer_of_mem i d hi
  -- No parent link has changed, so there is no new way up from a node to itself.
  · refine hf.acyclic i (Relation.TransGen.mono (fun x y hxy => ?_) i i hi)
    exact (parentOf_update hparent).symm.trans hxy

end Adopting

/-! ## Actions -/

/-- Looking for a child changes nothing, and what is found is the position of the child. -/
theorem locate_ok {spot : Spot} {index : Int} {e : Forest} (h : locate c spot f = .ok index e) :
    e = f ∧ ∀ i, spot = .node i → (f.childrenOf c).idxOf? i = some index.toNat ∧ 0 ≤ index := by
  unfold locate at h
  cases spot with
  | index k =>
    cases h
    exact ⟨rfl, nofun⟩
  | node i =>
    dsimp only at h
    rw [Edit.get_bind_apply] at h
    cases hk : (f.childrenOf c).idxOf? i with
    | none =>
      rw [hk] at h
      cases h
    | some k =>
      rw [hk] at h
      cases h
      refine ⟨rfl, fun j hj => ?_⟩
      cases hj
      exact ⟨hk, Int.natCast_nonneg k⟩

/-- A position that resolves is one of a child; one from the front resolves to itself. -/
theorem resolveIndex?_eq_some {n k : Nat} {index : Int} (h : resolveIndex? n index = some k) :
    k < n ∧ (0 ≤ index → k = index.toNat) := by
  unfold resolveIndex? at h
  dsimp only at h
  rw [Option.ite_none_right_eq_some, Bool.and_eq_true, decide_eq_true_eq, decide_eq_true_eq,
    Option.some.injEq] at h
  obtain ⟨⟨hle, hlt⟩, rfl⟩ := h
  by_cases hneg : index < 0
  · rw [if_pos hneg] at hle hlt ⊢
    omega
  · rw [if_neg hneg] at hle hlt ⊢
    omega

/-- Removing takes out one child, the node named if one is. -/
theorem removeChild_ok {spot : Spot} (h : removeChild c spot f = .ok () g) :
    ∃ k index i, (f.childrenOf c)[k]? = some i ∧ (∀ j, spot = .node j → i = j) ∧
      g = f.without c k index i := by
  unfold removeChild at h
  obtain ⟨index, e, hlocate, hrest⟩ := Edit.exists_of_bind_ok h
  obtain ⟨rfl, hnode⟩ := locate_ok hlocate
  rw [Edit.get_bind_apply] at hrest
  cases hk : resolveIndex? (e.childrenOf c).length index with
  | none =>
    rw [hk] at hrest
    cases hrest
  | some k =>
    obtain ⟨hlt, hindex⟩ := resolveIndex?_eq_some hk
    rw [hk] at hrest
    dsimp only at hrest
    rw [Edit.bind_ok (Edit.modify_apply _), List.getElem?_eq_getElem hlt] at hrest
    cases hrest
    refine ⟨k, index, _, List.getElem?_eq_getElem hlt, fun j hj => ?_, rfl⟩
    obtain ⟨hfirst, hnonneg⟩ := hnode j hj
    obtain ⟨hlt', hj', -⟩ := List.idxOf?_eq_some_iff.1 hfirst
    simp only [hindex hnonneg]
    exact hj'

/-- Taking a node from its parent does nothing if there is none, and takes it out of the parent's
children otherwise. -/
theorem remove_ok (h : remove i f = .ok () g) :
    f.parentOf i = none ∧ g = f ∨
      ∃ p k index, (f.childrenOf p)[k]? = some i ∧ g = f.without p k index i := by
  unfold remove at h
  rw [Edit.get_bind_apply] at h
  cases hp : f.parentOf i with
  | none =>
    rw [hp] at h
    cases h
    exact Or.inl ⟨rfl, rfl⟩
  | some p =>
    rw [hp] at h
    obtain ⟨k, index, j, hk, hnode, rfl⟩ := removeChild_ok h
    obtain rfl := hnode i rfl
    exact Or.inr ⟨p, k, index, hk, rfl⟩

/-- Nodes that may be handed to a container: they exist, and are neither the container nor above
it. -/
def MayAdopt (f : Forest) (c : NodeId) (new : List NodeId) : Prop :=
  ∀ i ∈ new, i < f.size ∧ i ≠ c ∧ ¬f.IsBelow c i

/-- Nothing is above a node without a parent. -/
theorem mayAdopt_of_parentOf (hc : f.parentOf c = none) {new : List NodeId}
    (hnew : ∀ i ∈ new, i < f.size ∧ i ≠ c) : f.MayAdopt c new := by
  intro i hi
  refine ⟨(hnew i hi).1, (hnew i hi).2, fun hbelow => ?_⟩
  obtain ⟨d, hd, -⟩ := Relation.TransGen.head'_iff.1 hbelow
  rw [HangsFrom, hc] at hd
  cases hd

namespace Adopting

/-- A node can be taken from its parent while others are on their way to a container. -/
theorem remove (hf : f.Adopting c pending) (h : remove i f = .ok () g) :
    g.Adopting c pending ∧ Rearranged f (· = i) g ∧ g.parentOf i = none := by
  rcases remove_ok h with ⟨hnone, rfl⟩ | ⟨p, k, index, hk, rfl⟩
  · exact ⟨hf, Rearranged.refl g _, hnone⟩
  · have hi := lt_size_of_parentOf
      ((hf.mem_childrenOf_iff i p).1 (List.mem_of_getElem? hk)).1
    refine ⟨hf.without hk index, rearranged_without hi p k index, ?_⟩
    rw [parentOf_without hi, if_pos rfl]

/-- Nodes handed to a container are on their way to it. -/
theorem adopt : ∀ {new : List NodeId} {f : Forest} {pending : List NodeId},
    f.Adopting c pending → MayAdopt f c new → adopt c new f = .ok () g →
    g.Adopting c (pending ++ new) ∧ Rearranged f (· ∈ new) g
  | [], f, pending, hf, _, h => by
    cases h
    rw [List.append_nil]
    exact ⟨hf, Rearranged.refl _ _⟩
  | i :: new, f, pending, hf, hnew, h => by
    obtain ⟨hi, hic, hci⟩ := hnew i List.mem_cons_self
    unfold Forest.adopt at h
    obtain ⟨⟨⟩, e, hremove, hrest⟩ := Edit.exists_of_bind_ok h
    rw [Edit.bind_ok (Edit.modify_apply _)] at hrest
    obtain ⟨he, hfe, hnone⟩ := hf.remove hremove
    have hisize : i < e.size := hfe.size_eq ▸ hi
    have hstep : Rearranged f (· = i) (e.withParent i (some c)) :=
      (hfe.trans (rearranged_withParent hisize (some c))).mono fun j hj => hj.elim id id
    have hnext := he.withParent hisize hnone hic fun h => hci (hfe.isBelow hic hci h)
    obtain ⟨hg, hrearranged⟩ := adopt hnext (fun j hj => by
      obtain ⟨hj, hjc, hcj⟩ := hnew j (List.mem_cons_of_mem i hj)
      exact ⟨hstep.size_eq ▸ hj, hjc, fun h => hcj (hstep.isBelow hic hci h)⟩) hrest
    refine ⟨?_, (hstep.trans hrearranged).mono fun j hj => ?_⟩
    · rw [List.append_cons]
      exact hg
    · rcases hj with rfl | hj
      · exact List.mem_cons_self
      · exact List.mem_cons_of_mem i hj

end Adopting

namespace Consistent

variable {spot : Spot} {new : List NodeId}

/-- Taking a child out leaves a forest consistent. -/
theorem removeChild (hf : f.Consistent) (h : removeChild c spot f = .ok () g) : g.Consistent := by
  obtain ⟨k, index, i, hk, -, rfl⟩ := removeChild_ok h
  exact adopting_nil_iff.1 ((adopting_nil_iff (c := c).2 hf).without hk index)

theorem remove (hf : f.Consistent) (h : remove i f = .ok () g) : g.Consistent :=
  adopting_nil_iff.1 ((adopting_nil_iff (c := i).2 hf).remove h).1

/-- Nodes are handed to a container and then put among its children. -/
theorem adopt_arrive (hf : f.Consistent) (hc : f.isContainer c = true) (hnew : f.MayAdopt c new)
    {e : Forest} (hadopt : adopt c new f = .ok () e) {a : Slot → Slot}
    (hcontent : ∀ s, (a s).content = s.content) (hparent : ∀ s, (a s).parent = s.parent)
    (hkeys : ∀ s : Slot, (∀ k ∈ s.cursors, k.key ≤ s.lastKey) →
      ∀ k ∈ (a s).cursors, k.key ≤ (a s).lastKey)
    (hchildren : ∃ r : List NodeId → List NodeId, (∀ s, (a s).children = r s.children) ∧
      ∀ ds, (r ds).Perm (ds ++ new)) :
    (e.update c a).Consistent ∧ Rearranged f (· ∈ new) (e.update c a) := by
  obtain ⟨r, hr, hperm⟩ := hchildren
  obtain ⟨he, hfe⟩ := (adopting_nil_iff.2 hf).adopt hnew hadopt
  rw [List.nil_append] at he
  have hsize : c < e.size := by
    rw [hfe.size_eq]
    exact lt_size_of_isContainer hc
  refine ⟨he.arrive ((hfe.isContainer_eq c).trans hc) hcontent hparent
    (he.keysGiven.update hkeys) ?_,
    ?_⟩
  · rw [childrenOf_update_self hsize hr]
    exact hperm _
  · exact ⟨(size_update ..).trans hfe.size_eq, fun i => (contentOf_update hcontent).trans
      (hfe.contentOf_eq i), fun i hi => (parentOf_update hparent).trans (hfe.parentOf_eq i hi)⟩

/-- Appending nodes leaves a forest consistent, and moves those nodes only. -/
theorem append (hf : f.Consistent) (hc : f.isContainer c = true) (hnew : f.MayAdopt c new)
    (h : append c new f = .ok () g) : g.Consistent ∧ Rearranged f (· ∈ new) g := by
  obtain ⟨⟨⟩, e, hadopt, hrest⟩ := Edit.exists_of_bind_ok h
  cases hrest
  exact hf.adopt_arrive hc hnew hadopt (fun _ => rfl) (fun _ => rfl) (fun _ hs => hs)
    ⟨(· ++ new), fun _ => rfl, fun ds => List.Perm.refl _⟩

/-- Splicing puts nodes in and takes none away. -/
theorem spliceAt_perm (ds : List NodeId) (index : Int) (new : List NodeId) :
    (spliceAt ds index new).Perm (ds ++ new) := by
  unfold spliceAt
  dsimp only
  generalize clampIndex ds.length index = k
  rw [List.append_assoc]
  refine (List.perm_append_comm.append_left (ds.take k)).trans ?_
  rw [← List.append_assoc, List.take_append_drop]

/-- Inserting nodes before a child leaves a forest consistent. -/
theorem insertBefore (hf : f.Consistent) (hc : f.isContainer c = true) (hnew : f.MayAdopt c new)
    (h : insertBefore c spot new f = .ok () g) : g.Consistent := by
  obtain ⟨⟨⟩, e, hadopt, hrest⟩ := Edit.exists_of_bind_ok h
  obtain ⟨index, e', hlocate, hsplice⟩ := Edit.exists_of_bind_ok hrest
  obtain ⟨rfl, -⟩ := locate_ok hlocate
  cases hsplice
  exact (hf.adopt_arrive (a := (·.insertBefore index new)) hc hnew hadopt (fun _ => rfl)
    (fun _ => rfl) (fun s hs => keysGiven_shiftCursors { s with children := _ } hs _ _)
    ⟨(spliceAt · index new), fun _ => rfl, fun ds => spliceAt_perm ds index new⟩).1

/-- Inserting nodes behind a child leaves a forest consistent. -/
theorem insertAfter (hf : f.Consistent) (hc : f.isContainer c = true) (hnew : f.MayAdopt c new)
    (h : insertAfter c spot new f = .ok () g) : g.Consistent := by
  obtain ⟨⟨⟩, e, hadopt, hrest⟩ := Edit.exists_of_bind_ok h
  obtain ⟨index, e', hlocate, hsplice⟩ := Edit.exists_of_bind_ok hrest
  obtain ⟨rfl, -⟩ := locate_ok hlocate
  cases hsplice
  exact (hf.adopt_arrive (a := (·.insertAfter index new)) hc hnew hadopt (fun _ => rfl)
    (fun _ => rfl) (fun s hs => keysGiven_shiftCursors { s with children := _ } hs _ _)
    ⟨(spliceAt · (index + 1) new), fun _ => rfl, fun ds => spliceAt_perm ds (index + 1) new⟩).1

end Consistent

end Forest

end PixelUnit
