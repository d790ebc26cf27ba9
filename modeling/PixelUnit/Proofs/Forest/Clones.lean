import PixelUnit.Proofs.Forest.Apart
import PixelUnit.Proofs.Forest.Places

/-!
# Detached copies

A copy of the tree below a node is made of new nodes only, one for each node there, which hang
together as those do (`Forest.Mirrors`). The numbers of the new nodes follow the order of the tree,
so that the twin of a node is found by its place there (`Forest.twin`).

All nodes that were there stay as they are, and no link leads from them to the copy or back. So the
copy reads as the original does, and what happens to one of them later cannot be seen on the other
(`Forest.Detached`).
-/

namespace PixelUnit

open Sheet

namespace Forest

variable {f e g : Forest} {i j k c lo m depth : Nat} {p : Option NodeId} {ns ns' : List NodeId}

/-! ## The nodes of a tree -/

/-- The nodes of the trees below nodes, down to a given depth. -/
def nodesOf (f : Forest) (depth : Nat) (tops : List NodeId) : List NodeId :=
  tops.flatMap fun i => i :: f.nodesTo depth i

/-- The nodes below some tops are those below the first one and those below the others. -/
theorem nodesOf_cons (f : Forest) (depth i : Nat) (is : List NodeId) :
    f.nodesOf depth (i :: is) = f.nodesOf depth [i] ++ f.nodesOf depth is := by
  unfold nodesOf
  rw [List.flatMap_cons, List.flatMap_singleton]

/-- The nodes of one tree are its top and those below its children. -/
theorem nodesOf_succ (f : Forest) (depth i : Nat) :
    f.nodesOf (depth + 1) [i] = i :: f.nodesOf depth (f.childrenOf i) := by
  unfold nodesOf
  rw [List.flatMap_singleton, nodesTo_succ]

/-- A node is the top of a tree or lies below it. -/
def InTree (f : Forest) (i k : NodeId) : Prop :=
  k = i ∨ f.IsBelow k i

/-- With enough depth, the nodes listed below some tops are those in their trees. -/
theorem Consistent.mem_nodesOf_iff (hf : f.Consistent) {tops : List NodeId}
    (htops : ∀ i ∈ tops, f.EndsWithin depth i) :
    k ∈ f.nodesOf depth tops ↔ ∃ i ∈ tops, f.InTree i k := by
  unfold nodesOf
  rw [List.mem_flatMap]
  refine exists_congr fun i => and_congr_right fun hi => ?_
  rw [List.mem_cons]
  exact or_congr_right (hf.mem_visitsTo_iff (htops i hi))

/-- Children of nodes of a tree belong to it. -/
theorem Consistent.inTree_child (hf : f.Consistent) (hk : f.InTree i k)
    (hj : j ∈ f.childrenOf k) : f.InTree i j := by
  have hjk : f.HangsFrom j k := (hf.mem_childrenOf_iff j k).1 hj
  rcases hk with rfl | hk
  · exact Or.inr (Relation.TransGen.single hjk)
  · exact Or.inr (Relation.TransGen.head hjk hk)

/-- The nodes in the tree of a node of the forest are nodes of the forest. -/
theorem Consistent.lt_size_of_inTree (hf : f.Consistent) (hi : i < f.size) (hk : f.InTree i k) :
    k < f.size := by
  rcases hk with rfl | hk
  · exact hi
  · obtain ⟨q, hkq, -⟩ := Relation.TransGen.head'_iff.1 hk
    exact (hf.lt_size_of_hangsFrom hkq).1

/-- So do parents, but for that of its top. -/
theorem InTree.exists_parent (hk : f.InTree i k) (hne : k ≠ i) :
    ∃ q, f.parentOf k = some q ∧ f.InTree i q := by
  obtain ⟨q, hkq, hq⟩ := Relation.TransGen.head'_iff.1 (hk.resolve_left hne)
  exact ⟨q, hkq, (Relation.reflTransGen_iff_eq_or_transGen.1 hq).imp_left Eq.symm⟩

/-! ## Twins -/

/-- The node that a copy has for the node `k`, if the nodes of the tree are `ns`, in their order,
and their copies have the numbers from `lo` on. -/
def twin (lo : Nat) (ns : List NodeId) (k : NodeId) : NodeId :=
  lo + ns.idxOf k

/-- The twin of a node of the first list does not depend on what comes behind that list. -/
theorem twin_append_left (hk : k ∈ ns) : twin lo (ns ++ ns') k = twin lo ns k := by
  unfold twin
  rw [List.idxOf_append, if_pos hk]

/-- The twin of a node that is not in the first list is counted from behind that list. -/
theorem twin_append_right (hk : k ∉ ns) :
    twin lo (ns ++ ns') k = twin (lo + ns.length) ns' k := by
  unfold twin
  rw [List.idxOf_append, if_neg hk, Nat.add_assoc, Nat.add_comm ns.length]

theorem twin_cons_self (lo i : Nat) (ns : List NodeId) : twin lo (i :: ns) i = lo := by
  unfold twin
  rw [List.idxOf_cons_self, Nat.add_zero]

theorem twin_cons_of_ne (hk : k ≠ i) : twin lo (i :: ns) k = twin (lo + 1) ns k := by
  unfold twin
  rw [List.idxOf_cons_ne ns (Ne.symm hk), Nat.add_assoc, Nat.add_comm 1]

end Forest

namespace Slot

/-- The copy of a node, below a given parent. -/
def twin (s : Slot) (p : Option NodeId) (t : NodeId → NodeId) : Slot :=
  { s with parent := p, children := s.children.map t, cursors := [] }

/-- Only the twins of the children matter. -/
theorem twin_congr {s : Slot} {p : Option NodeId} {t t' : NodeId → NodeId}
    (h : ∀ j ∈ s.children, t j = t' j) : s.twin p t = s.twin p t' := by
  unfold twin
  rw [List.map_congr_left h]

/-- Twins of a slot agree if what the links lead to has the same twins. -/
theorem twin_ite_congr {s : Slot} {p : Option NodeId} {t t' : NodeId → NodeId} {P Q : Prop}
    [Decidable P] [Decidable Q] (hPQ : P ↔ Q) (hparent : ¬P → ∀ q, s.parent = some q → t q = t' q)
    (hchildren : ∀ j ∈ s.children, t j = t' j) :
    s.twin (if P then p else s.parent.map t) t = s.twin (if Q then p else s.parent.map t') t' := by
  rw [twin_congr hchildren]
  by_cases hP : P
  · rw [if_pos hP, if_pos (hPQ.1 hP)]
  · rw [if_neg hP, if_neg (hPQ.not.1 hP), Option.map_congr (hparent hP)]

end Slot

namespace Forest

variable {f e g : Forest} {i j k c lo m depth : Nat} {p : Option NodeId} {ns ns' : List NodeId}

/-- What `g` has more than `e` are twins of the nodes of some trees of `f`; their tops hang from
`p`. -/
structure Twins (f : Forest) (depth : Nat) (tops : List NodeId) (p : Option NodeId) (e g : Forest) :
    Prop where
  grown : Grown e g (f.nodesOf depth tops).length
  get?_twin : ∀ k ∈ f.nodesOf depth tops, ∀ s, f.get? k = some s →
    g.get? (twin e.size (f.nodesOf depth tops) k) =
      some (s.twin (if k ∈ tops then p else s.parent.map (twin e.size (f.nodesOf depth tops)))
        (twin e.size (f.nodesOf depth tops)))

/-- The node that a node of a tree hangs from is another node of the tree. -/
theorem InTree.parent {s : Slot} {q : NodeId} (hk : f.InTree i k) (hne : k ≠ i)
    (hs : f.get? k = some s) (hq : s.parent = some q) : f.InTree i q := by
  obtain ⟨q', hq', hin⟩ := hk.exists_parent hne
  rw [parentOf_of_get? hs, hq] at hq'
  exact Option.some.inj hq' ▸ hin

/-- Twins of a tree and of those behind it are twins of all of them. -/
theorem Twins.cons (hf : f.Consistent) {h : Forest} {is : List NodeId} (hi : f.EndsWithin depth i)
    (his : ∀ l ∈ is, f.EndsWithin depth l)
    (hdisjoint : ∀ k ∈ f.nodesOf depth is, k ∉ f.nodesOf depth [i])
    (hfirst : Twins f depth [i] p e g) (hrest : Twins f depth is p g h) :
    Twins f depth (i :: is) p e h := by
  have hmem {k : NodeId} : k ∈ f.nodesOf depth [i] ↔ f.InTree i k := by
    rw [hf.mem_nodesOf_iff (by simpa using hi)]
    simp
  have hmem' {k : NodeId} : k ∈ f.nodesOf depth is ↔ ∃ l ∈ is, f.InTree l k :=
    hf.mem_nodesOf_iff his
  have hin : i ∈ f.nodesOf depth [i] := hmem.2 (Or.inl rfl)
  have htop {l : NodeId} (hl : l ∈ is) : l ∈ f.nodesOf depth is := hmem'.2 ⟨l, hl, Or.inl rfl⟩
  have hsize := hfirst.grown.size_eq
  constructor
  · rw [nodesOf_cons, List.length_append]
    exact hfirst.grown.trans hrest.grown
  intro k hk s hs
  rw [nodesOf_cons] at hk ⊢
  have hchild {j : NodeId} (hj : j ∈ s.children) : j ∈ f.childrenOf k := by
    rwa [childrenOf_of_get? hs]
  -- A twin of the first tree, which the others leave as it is; it hangs from the node outside if it
  -- is the top.
  rcases List.mem_append.1 hk with hk | hk
  · have hlt : twin e.size (f.nodesOf depth [i]) k < g.size :=
      hsize ▸ Nat.add_lt_add_left (List.idxOf_lt_length_of_mem hk) e.size
    have htree := hmem.1 hk
    rw [twin_append_left hk, hrest.grown.get?_eq _ hlt, hfirst.get?_twin k hk s hs]
    refine congrArg some (Slot.twin_ite_congr ?_ (fun hne q hq => ?_) fun j hj => ?_)
    · rw [List.mem_singleton, List.mem_cons]
      exact (or_iff_left fun hl => hdisjoint k (htop hl) hk).symm
    · exact (twin_append_left (hmem.2 (htree.parent (by simpa using hne) hs hq))).symm
    · exact (twin_append_left (hmem.2 (hf.inTree_child htree (hchild hj)))).symm
  -- A twin of one of the other trees, which is counted behind those of the first.
  · obtain ⟨l, hl, htree⟩ := hmem'.1 hk
    have hright := hrest.get?_twin k hk s hs
    rw [hsize] at hright
    rw [twin_append_right (hdisjoint k hk), hright]
    refine congrArg some (Slot.twin_ite_congr ?_ (fun hne q hq => ?_) fun j hj => ?_)
    · rw [List.mem_cons]
      exact (or_iff_right fun hki : k = i => hdisjoint k hk (hki ▸ hin)).symm
    · exact (twin_append_right (hdisjoint q
        (hmem'.2 ⟨l, hl, htree.parent (fun h => hne (h ▸ hl)) hs hq⟩))).symm
    · exact (twin_append_right (hdisjoint j
        (hmem'.2 ⟨l, hl, hf.inTree_child htree (hchild hj)⟩))).symm

/-- Every tree of `f` down to a depth is copied to twins, wherever `f` has grown to. -/
def CopiesTwins (f : Forest) (depth : Nat) : Prop :=
  ∀ (i : NodeId) (e : Forest) (m : Nat) (p : Option NodeId), f.EndsWithin depth i → i < f.size →
    Grown f e m →
    (e.copyTo p depth i).1 = e.size ∧ Twins f depth [i] p e (e.copyTo p depth i).2

/-- If every tree is copied to twins, so are trees side by side: the twins of the first are
unaffected by those that are added behind them. -/
theorem Consistent.copyAllTo_twins (hf : f.Consistent) (hcopies : CopiesTwins f depth) :
    ∀ (is : List NodeId) (e : Forest) (m : Nat) (q : NodeId),
      (∀ i ∈ is, f.EndsWithin depth i ∧ i < f.size) → (f.nodesOf depth is).Nodup → Grown f e m →
      (e.copyAllTo q depth is).1 = is.map (twin e.size (f.nodesOf depth is)) ∧
        Twins f depth is (some q) e (e.copyAllTo q depth is).2
  | [], e, m, q, _, _, _ => by
    rw [copyAllTo_nil]
    exact ⟨rfl, Grown.refl e, fun k hk => absurd hk List.not_mem_nil⟩
  | i :: is, e, m, q, his, hnodup, he => by
    obtain ⟨hdepth, hi⟩ := his i List.mem_cons_self
    have htail : ∀ l ∈ is, f.EndsWithin depth l ∧ l < f.size := fun l hl =>
      his l (List.mem_cons_of_mem i hl)
    rw [nodesOf_cons] at hnodup
    obtain ⟨-, hnodup', hdisjoint⟩ := List.nodup_append.1 hnodup
    have hout : ∀ k ∈ f.nodesOf depth is, k ∉ f.nodesOf depth [i] := fun k hk h =>
      hdisjoint k h k hk rfl
    obtain ⟨hfirst, htwins⟩ := hcopies i e m (some q) hdepth hi he
    obtain ⟨hrest, htwins'⟩ := hf.copyAllTo_twins hcopies is (e.copyTo (some q) depth i).2
      (m + (f.nodesOf depth [i]).length) q htail hnodup' (he.trans htwins.grown)
    rw [htwins.grown.size_eq] at hrest
    unfold copyAllTo
    dsimp only
    refine ⟨?_, htwins.cons hf hdepth (fun l hl => (htail l hl).1) hout htwins'⟩
    rw [hfirst, hrest, List.map_cons, nodesOf_cons f depth i is]
    congr 1
    · rw [nodesOf, List.flatMap_singleton, List.cons_append, twin_cons_self]
    · exact List.map_congr_left fun l hl => (twin_append_right (hout l
        ((hf.mem_nodesOf_iff fun l hl => (htail l hl).1).2 ⟨l, hl, Or.inl rfl⟩))).symm

/-- No node of the trees below a node is that node. -/
theorem Consistent.ne_of_mem_nodesOf (hf : f.Consistent) (hi : f.EndsWithin (depth + 1) i)
    (hk : k ∈ f.nodesOf depth (f.childrenOf i)) : k ≠ i := by
  rw [hf.mem_nodesOf_iff fun j hj => hi.child ((hf.mem_childrenOf_iff j i).1 hj)] at hk
  obtain ⟨j, hj, htree⟩ := hk
  rw [hf.mem_childrenOf_iff] at hj
  rintro rfl
  rcases htree with rfl | hbelow
  · exact hf.acyclic k (Relation.TransGen.single hj)
  · exact hf.acyclic k (hbelow.tail hj)

/-- A new node with twins of the trees below a node, which hang from it, makes twins of the tree. -/
theorem Twins.node (hf : f.Consistent) {s : Slot} {h : Forest} (hi : f.EndsWithin (depth + 1) i)
    (hs : f.get? i = some s) (hadd : Grown e g 1)
    (htwins : Twins f depth (f.childrenOf i) (some e.size) g h) :
    Twins f (depth + 1) [i] p e (h.update e.size fun _ =>
      s.twin p (twin (e.size + 1) (f.nodesOf depth (f.childrenOf i)))) := by
  have hmem {k : NodeId} : k ∈ f.nodesOf depth (f.childrenOf i) ↔
      ∃ j ∈ f.childrenOf i, f.InTree j k :=
    hf.mem_nodesOf_iff fun j hj => hi.child ((hf.mem_childrenOf_iff j i).1 hj)
  have hsize : g.size = e.size + 1 := hadd.size_eq
  have htwin {k : NodeId} (hk : k ∈ f.nodesOf depth (f.childrenOf i)) :
      twin (e.size + 1) (f.nodesOf depth (f.childrenOf i)) k =
        twin e.size (i :: f.nodesOf depth (f.childrenOf i)) k :=
    (twin_cons_of_ne (hf.ne_of_mem_nodesOf hi hk)).symm
  refine ⟨⟨?_, fun j hj => ?_⟩, fun k hk t ht => ?_⟩
  · rw [size_update, htwins.grown.size_eq, hsize, nodesOf_succ, List.length_cons]
    omega
  · rw [get?_update_of_ne _ (Nat.ne_of_gt hj), htwins.grown.get?_eq j (by omega), hadd.get?_eq j hj]
  rw [nodesOf_succ] at hk ⊢
  -- The top of the tree: its twin is the new node, whose children are the twins of its children.
  rcases List.mem_cons.1 hk with rfl | hk
  · obtain rfl : s = t := Option.some.inj (hs.symm.trans ht)
    have hold : e.size < h.size := by
      rw [htwins.grown.size_eq, hsize]
      omega
    obtain ⟨u, hu⟩ := get?_eq_some_of_lt hold
    rw [twin_cons_self, get?_update_self, hu, if_pos List.mem_cons_self]
    refine congrArg some (Slot.twin_congr fun j hj => htwin (hmem.2 ⟨j, ?_, Or.inl rfl⟩))
    rwa [childrenOf_of_get? hs]
  -- A node below: its twin is what it was among the twins of the trees, and its parent is the new
  -- node if it is one of their tops.
  · obtain ⟨j, hj, htree⟩ := hmem.1 hk
    have hcopied := htwins.get?_twin k hk t ht
    have hlater : e.size ≠ twin e.size (i :: f.nodesOf depth (f.childrenOf i)) k := by
      rw [← htwin hk]
      exact Nat.ne_of_lt (Nat.lt_add_right _ (Nat.lt_succ_self _))
    have htchild {l : NodeId} (hl : l ∈ t.children) : l ∈ f.nodesOf depth (f.childrenOf i) :=
      hmem.2 ⟨j, hj, hf.inTree_child htree (by rwa [childrenOf_of_get? ht])⟩
    have hparent : (if k ∈ f.childrenOf i then some e.size
          else t.parent.map (twin (e.size + 1) (f.nodesOf depth (f.childrenOf i)))) =
        t.parent.map (twin e.size (i :: f.nodesOf depth (f.childrenOf i))) := by
      split
      · next htop =>
        rw [hf.mem_childrenOf_iff, parentOf_of_get? ht] at htop
        rw [htop, Option.map_some, twin_cons_self]
      · next htop =>
        refine Option.map_congr fun q hq => htwin (hmem.2 ⟨j, hj, ?_⟩)
        exact htree.parent (fun h => htop (h ▸ hj)) ht hq
    rw [hsize, htwin hk, hparent] at hcopied
    rw [get?_update_of_ne _ hlater, hcopied,
      if_neg fun h => hf.ne_of_mem_nodesOf hi hk (List.mem_singleton.1 h)]
    exact congrArg some (Slot.twin_congr fun l hl => htwin (htchild hl))

/-- Every tree of a consistent forest is copied to twins, whatever has been added to the forest by
then. The induction is on the depth, as for `Consistent.copiesTree`. -/
theorem Consistent.copiesTwins (hf : f.Consistent) : ∀ depth : Nat, CopiesTwins f depth
  | 0, i, e, m, p, hdepth, _, _ => absurd hdepth.pos (Nat.lt_irrefl 0)
  | depth + 1, i, e, m, p, hdepth, hi, he => by
    obtain ⟨s, hs⟩ := get?_eq_some_of_lt hi
    have hchildren : s.children = f.childrenOf i := (childrenOf_of_get? hs).symm
    have hbelow : ∀ j ∈ f.childrenOf i, f.EndsWithin depth j ∧ j < f.size := by
      intro j hj
      rw [hf.mem_childrenOf_iff] at hj
      exact ⟨hdepth.child hj, (hf.lt_size_of_hangsFrom hj).1⟩
    have hnodup : (f.nodesOf depth (f.childrenOf i)).Nodup := by
      rw [nodesOf, ← nodesTo_succ]
      exact hf.nodup_visitsTo hdepth
    have hadd := grown_add e { s with parent := p, children := [], cursors := [] }
    obtain ⟨hids, htwins⟩ := hf.copyAllTo_twins (hf.copiesTwins depth) (f.childrenOf i)
      (e.add { s with parent := p, children := [], cursors := [] }).2 (m + 1) e.size hbelow hnodup
      (he.trans hadd)
    have hself : (e.add { s with parent := p, children := [], cursors := [] }).2.get? e.size =
        some { s with parent := p, children := [], cursors := [] } := by
      rw [get?_add, if_pos rfl]
    rw [copyTo_of_get? ((he.get?_eq i hi).trans hs), hchildren]
    generalize (e.add { s with parent := p, children := [], cursors := [] }).2 = g at *
    generalize g.copyAllTo e.size depth (f.childrenOf i) = r at *
    have hsize : g.size = e.size + 1 := hadd.size_eq
    -- the new node has got its children
    have hnew : (r.2.update e.size fun t => { t with children := r.1 }) = r.2.update e.size fun _ =>
        s.twin p (twin (e.size + 1) (f.nodesOf depth (f.childrenOf i))) := by
      refine ext_get? fun j => ?_
      by_cases hj : e.size = j
      · subst hj
        rw [get?_update_self, get?_update_self,
          htwins.grown.get?_eq _ (hsize ▸ Nat.lt_succ_self _), hself, hids, hsize,
          Slot.twin, hchildren]
        rfl
      · rw [get?_update_of_ne _ hj, get?_update_of_ne _ hj]
    rw [hnew]
    exact ⟨rfl, .node hf hdepth hs hadd htwins⟩

/-! ## Copies -/

/-- A forest has a detached copy of the tree below a node, besides what it had before: every node of
the tree has a new node as its twin, which is as the node is, but that its parent and its children
are twins of the parent and the children there, and that no iterations run over it. -/
structure Mirrors (f : Forest) (i : NodeId) (t : NodeId → NodeId) (g : Forest) : Prop where
  get?_old : ∀ k : Nat, k < f.size → g.get? k = f.get? k
  fresh : ∀ k, f.InTree i k → f.size ≤ t k ∧ t k < g.size
  injective : ∀ k l, f.InTree i k → f.InTree i l → t k = t l → k = l
  exists_twin : ∀ j : Nat, f.size ≤ j → j < g.size → ∃ k, f.InTree i k ∧ t k = j
  get?_twin : ∀ k s, f.InTree i k → f.get? k = some s →
    g.get? (t k) = some (s.twin (if k = i then none else s.parent.map t) t)

/-- The copy of a node is a mirror of its tree: the twins of all its nodes are new ones. -/
theorem Consistent.copyTo_mirrors (hf : f.Consistent) (hi : i < f.size) :
    ∃ t, (f.copyTo none (f.size + 1) i).1 = t i ∧
      f.Mirrors i t (f.copyTo none (f.size + 1) i).2 := by
  obtain ⟨hfirst, htwins⟩ := hf.copiesTwins (f.size + 1) i f 0 none (hf.endsWithin i) hi
    (Grown.refl f)
  have hmem {k : NodeId} : k ∈ f.nodesOf (f.size + 1) [i] ↔ f.InTree i k := by
    rw [hf.mem_nodesOf_iff (by simpa using hf.endsWithin i)]
    simp
  have hnodup : (f.nodesOf (f.size + 1) [i]).Nodup := by
    rw [nodesOf, List.flatMap_singleton, List.nodup_cons]
    exact ⟨fun h => hf.acyclic i ((hf.mem_visitsTo_iff (hf.endsWithin i)).1 h),
      hf.nodup_visitsTo (hf.endsWithin i)⟩
  have hsize := htwins.grown.size_eq
  refine ⟨twin f.size (f.nodesOf (f.size + 1) [i]), ?_, htwins.grown.get?_eq, fun k hk => ?_,
    fun k l hk hl h => ?_, fun j hj hlt => ?_, fun k s hk hs => ?_⟩
  · rw [hfirst, nodesOf, List.flatMap_singleton, twin_cons_self]
  · rw [hsize]
    exact ⟨Nat.le_add_right _ _,
      Nat.add_lt_add_left (List.idxOf_lt_length_of_mem (hmem.2 hk)) f.size⟩
  · exact (List.idxOf_inj (hmem.2 hk)).1 (Nat.add_left_cancel h)
  · obtain ⟨n, rfl⟩ := Nat.exists_eq_add_of_le hj
    rw [hsize] at hlt
    have hn := Nat.lt_of_add_lt_add_left hlt
    refine ⟨(f.nodesOf (f.size + 1) [i])[n], hmem.1 (List.getElem_mem hn), ?_⟩
    rw [twin, hnodup.idxOf_getElem n hn]
  · have hcopied := htwins.get?_twin k (hmem.2 hk) s hs
    simpa only [List.mem_singleton] using hcopied

namespace Mirrors

variable {t : NodeId → NodeId}

/-- The copy of the top of a tree has no parent. -/
theorem parentOf_top (hg : f.Mirrors i t g) (hi : i < f.size) : g.parentOf (t i) = none := by
  obtain ⟨s, hs⟩ := get?_eq_some_of_lt hi
  rw [parentOf_of_get? (hg.get?_twin i s (Or.inl rfl) hs), Slot.twin, if_pos rfl]

/-- A copy reads as the original does. -/
theorem viewTo_eq (hg : f.Mirrors i t g) (hf : f.Consistent) (hi : i < f.size) :
    ∀ (depth : Nat) {k : NodeId}, f.InTree i k → g.viewTo depth (t k) = f.viewTo depth k
  | 0, _, _ => rfl
  | depth + 1, k, hk => by
    obtain ⟨s, hs⟩ := get?_eq_some_of_lt (hf.lt_size_of_inTree hi hk)
    rw [viewTo, viewTo, hg.get?_twin k s hk hs, hs]
    refine congrArg (Sheet.Tree.node s.content s.raws) ?_
    rw [Slot.twin, List.map_map]
    refine List.map_congr_left fun j hj => ?_
    exact hg.viewTo_eq hf hi depth (hf.inTree_child hk (by rwa [childrenOf_of_get? hs]))

theorem size_lt_size (hg : f.Mirrors i t g) : f.size < g.size :=
  (hg.fresh i (Or.inl rfl)).1.trans_lt (hg.fresh i (Or.inl rfl)).2

/-- A mirror of a tree reads as the tree does. -/
theorem view_eq (hg : f.Mirrors i t g) (hf : f.Consistent) (hi : i < f.size) :
    g.view (t i) = f.view i := by
  have hdepth : f.size < g.size + 1 := Nat.lt_succ_of_lt hg.size_lt_size
  rw [view, hg.viewTo_eq hf hi (g.size + 1) (Or.inl rfl), hf.viewTo_eq_view hdepth]

/-- No link leads from what was there to the copy, or back. -/
theorem apart (hg : f.Mirrors i t g) (hf : f.Consistent) (hi : i < f.size) :
    Apart (· < f.size) g := by
  have hold {k : NodeId} {s : Slot} (hk : k < f.size) (hs : g.get? k = some s) :
      f.get? k = some s := (hg.get?_old k hk).symm.trans hs
  have hnew {k : NodeId} {s : Slot} (hk : ¬k < f.size) (hs : g.get? k = some s) :
      ∃ l u, f.InTree i l ∧ f.get? l = some u ∧
        s = u.twin (if l = i then none else u.parent.map t) t := by
    obtain ⟨l, hl, rfl⟩ := hg.exists_twin k (Nat.le_of_not_lt hk) (lt_size_of_get? hs)
    obtain ⟨u, hu⟩ := get?_eq_some_of_lt (hf.lt_size_of_inTree hi hl)
    exact ⟨l, u, hl, hu, Option.some.inj (hs.symm.trans (hg.get?_twin l u hl hu))⟩
  constructor
  · intro k s p hs hp
    by_cases hk : k < f.size
    · refine iff_of_true ?_ hk
      exact (hf.lt_size_of_hangsFrom ((parentOf_of_get? (hold hk hs)).trans hp)).2
    · refine iff_of_false ?_ hk
      obtain ⟨l, u, hl, hu, rfl⟩ := hnew hk hs
      obtain ⟨hne, q, hq, rfl⟩ : l ≠ i ∧ ∃ q, u.parent = some q ∧ t q = p := by
        simpa [Slot.twin] using hp
      obtain ⟨q', hq', hin⟩ := hl.exists_parent hne
      obtain rfl : q = q' := Option.some.inj (hq.symm.trans ((parentOf_of_get? hu).symm.trans hq'))
      exact Nat.not_lt_of_le (hg.fresh q hin).1
  · intro k s j hs hj
    by_cases hk : k < f.size
    · refine iff_of_true ?_ hk
      rw [← childrenOf_of_get? (hold hk hs), hf.mem_childrenOf_iff] at hj
      exact (hf.lt_size_of_hangsFrom hj).1
    · refine iff_of_false ?_ hk
      obtain ⟨l, u, hl, hu, rfl⟩ := hnew hk hs
      obtain ⟨j', hj', rfl⟩ := List.mem_map.1 hj
      rw [← childrenOf_of_get? hu] at hj'
      exact Nat.not_lt_of_le (hg.fresh j' (hf.inTree_child hl hj')).1

end Mirrors

/-! ## Clones -/

/-- A clone is the copy with its attributes set, if they can all be set. -/
theorem clone_of_ok {e : Forest} {as : List Attribute}
    (h : overrideAll (f.copyTo none (f.size + 1) i).1 as (f.copyTo none (f.size + 1) i).2 =
      .ok () e) : (clone i as).run f = .ok (f.copyTo none (f.size + 1) i).1 e := by
  show clone i as f = _
  unfold clone
  rw [Edit.bind_ok (Edit.modifyGet_apply _), Edit.bind_ok h]
  rfl

/-- The nodes before a number and those from it on are detached: whatever has been changed on either
side, no changes on one side can be seen on the other. -/
def Detached (lo : NodeId) (g : Forest) : Prop :=
  ∀ before, (∀ a ∈ before, Change.On (· < lo) a ∨ Change.On (lo ≤ ·) a) →
    (∀ as, (∀ a ∈ as, Change.On (· < lo) a) → ∀ k : Nat, lo ≤ k →
      (Change.runAll as (Change.runAll before g)).view k = (Change.runAll before g).view k) ∧
    ∀ as, (∀ a ∈ as, Change.On (lo ≤ ·) a) → ∀ k : Nat, k < lo →
      (Change.runAll as (Change.runAll before g)).view k = (Change.runAll before g).view k

/-- Nodes that are apart from those before a number cannot be seen from these, nor the other way
around. -/
theorem Apart.detached {lo : Nat} (h : Apart (· < lo) g) : Detached lo g := by
  refine fun before hbefore => ⟨fun as has k hk => ?_, fun as has k hk => ?_⟩
  · have hbefore' : ∀ a ∈ before, Change.On (· < lo) a ∨ Change.On (¬· < lo) a :=
      fun a ha => by simpa only [Nat.not_lt] using hbefore a ha
    exact (Apart.runAll hbefore' h).view_runAll has (Nat.not_lt_of_le hk)
  · have hother : Apart (lo ≤ ·) g := h.congr fun k => Nat.not_lt.symm
    have hbefore' : ∀ a ∈ before, Change.On (lo ≤ ·) a ∨ Change.On (¬lo ≤ ·) a :=
      fun a ha => by simpa only [Nat.not_le] using (hbefore a ha).symm
    exact (Apart.runAll hbefore' hother).view_runAll has (Nat.not_le_of_lt hk)

/-- A node is copied with the tree below it. -/
theorem Consistent.clone_mirrors (hf : f.Consistent) (hi : i < f.size) :
    ∃ t g, (Forest.clone i []).run f = .ok (t i) g ∧ f.Mirrors i t g := by
  obtain ⟨t, hfirst, hg⟩ := hf.copyTo_mirrors hi
  refine ⟨t, _, ?_, hg⟩
  rw [← hfirst]
  exact clone_of_ok rfl

end Forest

end PixelUnit
