import Mathlib.Data.List.Chain
import Mathlib.Data.List.Nodup
import Mathlib.Data.List.Perm.Subperm
import Mathlib.Logic.Relation
import PixelUnit.Forest.Walk

/-!
# Consistent forests

In a consistent forest parents and children say the same, no node lies below itself, and the
iterations that run have keys of their own (`Forest.Consistent`). A chain of parents is then no
longer than the forest (`Consistent.length_le_size`), so that whatever goes down a tree level by
level comes to an end (`Consistent.endsWithin`).
-/

namespace PixelUnit

open Sheet

namespace Forest

/-- A node is a child of another, as its parent link says. -/
def HangsFrom (f : Forest) (i c : NodeId) : Prop :=
  f.parentOf i = some c

/-- A node lies below another. -/
def IsBelow (f : Forest) (i c : NodeId) : Prop :=
  Relation.TransGen f.HangsFrom i c

/-- The keys of the cursors of a node were given out. -/
def KeysGiven (f : Forest) : Prop :=
  ∀ i s, f.get? i = some s → ∀ c ∈ s.cursors, c.key ≤ s.lastKey

/-- Parents and children say the same, nothing lies below itself, and only containers have
children. -/
structure Consistent (f : Forest) : Prop where
  mem_childrenOf_iff : ∀ i c, i ∈ f.childrenOf c ↔ f.parentOf i = some c
  nodup_childrenOf : ∀ c, (f.childrenOf c).Nodup
  isContainer_of_mem : ∀ i c, i ∈ f.childrenOf c → f.isContainer c = true
  acyclic : ∀ i, ¬f.IsBelow i i
  keysGiven : f.KeysGiven

variable {f g : Forest}

theorem get?_eq_some_of_lt {i : NodeId} (h : i < f.size) : ∃ s, f.get? i = some s :=
  ⟨_, Array.getElem?_eq_getElem h⟩

theorem lt_size_of_get? {i : NodeId} {s : Slot} (h : f.get? i = some s) : i < f.size := by
  obtain ⟨hi, -⟩ := Array.getElem?_eq_some_iff.1 h
  exact hi

theorem contentOf_of_get? {i : NodeId} {s : Slot} (h : f.get? i = some s) :
    f.contentOf i = some s.content := by
  rw [contentOf, h]
  rfl

theorem parentOf_of_get? {i : NodeId} {s : Slot} (h : f.get? i = some s) :
    f.parentOf i = s.parent := by
  rw [parentOf, h]
  rfl

theorem childrenOf_of_get? {i : NodeId} {s : Slot} (h : f.get? i = some s) :
    f.childrenOf i = s.children := by
  rw [childrenOf, h]
  rfl

theorem parentOf_congr {i : NodeId} (h : g.get? i = f.get? i) : g.parentOf i = f.parentOf i := by
  unfold parentOf
  rw [h]

theorem childrenOf_congr {c : NodeId} (h : g.get? c = f.get? c) :
    g.childrenOf c = f.childrenOf c := by
  unfold childrenOf
  rw [h]

theorem isContainer_congr {c : NodeId} (h : g.get? c = f.get? c) :
    g.isContainer c = f.isContainer c := by
  unfold isContainer contentOf
  rw [h]

/-- Only nodes of the forest have children. -/
theorem lt_size_of_mem_childrenOf {i c : NodeId} (h : i ∈ f.childrenOf c) : c < f.size := by
  unfold childrenOf at h
  cases hc : f.get? c with
  | none =>
    rw [hc] at h
    cases h
  | some s => exact lt_size_of_get? hc

theorem lt_size_of_parentOf {i c : NodeId} (h : f.parentOf i = some c) : i < f.size := by
  obtain ⟨s, hs, -⟩ := Option.bind_eq_some_iff.1 h
  exact lt_size_of_get? hs

theorem lt_size_of_isContainer {i : NodeId} (h : f.isContainer i = true) : i < f.size := by
  unfold isContainer contentOf at h
  cases hs : f.get? i with
  | none =>
    rw [hs] at h
    cases h
  | some s => exact lt_size_of_get? hs

/-- What lies below a node is one of its children or lies below one of them. -/
theorem isBelow_iff_exists {i c : NodeId} :
    f.IsBelow i c ↔ ∃ j, f.HangsFrom j c ∧ (i = j ∨ f.IsBelow i j) := by
  unfold IsBelow
  rw [Relation.TransGen.tail'_iff]
  refine exists_congr fun j => ?_
  rw [Relation.reflTransGen_iff_eq_or_transGen, eq_comm, and_comm]

/-- Of two nodes above the same one, one is above the other: parents are unique. -/
theorem isBelow_or_isBelow {k i j : NodeId} (hi : k = i ∨ f.IsBelow k i)
    (hj : k = j ∨ f.IsBelow k j) : i = j ∨ f.IsBelow i j ∨ f.IsBelow j i := by
  have hunique : Relator.RightUnique f.HangsFrom := fun a b c hb hc =>
    Option.some.inj (hb.symm.trans hc)
  have hi' : Relation.ReflTransGen f.HangsFrom k i :=
    Relation.reflTransGen_iff_eq_or_transGen.2 (hi.imp_left Eq.symm)
  have hj' : Relation.ReflTransGen f.HangsFrom k j :=
    Relation.reflTransGen_iff_eq_or_transGen.2 (hj.imp_left Eq.symm)
  rcases hi'.total_of_right_unique hunique hj' with h | h
  · rcases Relation.reflTransGen_iff_eq_or_transGen.1 h with h | h
    · exact Or.inl h.symm
    · exact Or.inr (Or.inl h)
  · rcases Relation.reflTransGen_iff_eq_or_transGen.1 h with h | h
    · exact Or.inl h
    · exact Or.inr (Or.inr h)

/-- No chain of parents that ends in `c` has more than `depth` nodes. -/
def EndsWithin (f : Forest) (depth : Nat) (c : NodeId) : Prop :=
  ∀ l : List NodeId, (l ++ [c]).IsChain f.HangsFrom → l.length < depth

theorem EndsWithin.pos {depth : Nat} {c : NodeId} (h : f.EndsWithin depth c) : 0 < depth :=
  h [] (List.isChain_singleton c)

/-- One level down one level less is left. -/
theorem EndsWithin.child {depth : Nat} {i c : NodeId} (h : f.EndsWithin (depth + 1) c)
    (hi : f.HangsFrom i c) : f.EndsWithin depth i := by
  intro l hl
  have hchain : ((l ++ [i]) ++ [c]).IsChain f.HangsFrom := by
    refine hl.append (List.isChain_singleton c) fun a ha b hb => ?_
    obtain rfl : i = a := by simpa using ha
    obtain rfl : c = b := by simpa using hb
    exact hi
  have := h (l ++ [i]) hchain
  rw [List.length_append, List.length_singleton] at this
  omega

namespace Consistent

/-- Both ends of a parent link exist. -/
theorem lt_size_of_hangsFrom (hf : f.Consistent) {i c : NodeId} (h : f.HangsFrom i c) :
    i < f.size ∧ c < f.size :=
  ⟨lt_size_of_parentOf h, lt_size_of_mem_childrenOf ((hf.mem_childrenOf_iff i c).2 h)⟩

/-- What is no container has no children. -/
theorem childrenOf_eq_nil (hf : f.Consistent) {i : NodeId} (hi : f.isContainer i = false) :
    f.childrenOf i = [] := by
  refine List.eq_nil_iff_forall_not_mem.2 fun j hj => ?_
  rw [hf.isContainer_of_mem j i hj] at hi
  cases hi

/-- No node occurs twice in a chain of parents. -/
theorem nodup_of_chain (hf : f.Consistent) {l : List NodeId} (h : l.IsChain f.HangsFrom) :
    l.Nodup := by
  have hbelow : l.Pairwise f.IsBelow :=
    (h.imp fun _ _ hl => Relation.TransGen.single hl).pairwise
  refine hbelow.imp fun {i j} hij heq => ?_
  rw [heq] at hij
  exact hf.acyclic j hij

/-- All nodes of a chain of parents are nodes of the forest if the first one is. -/
theorem lt_size_of_mem_chain (hf : f.Consistent) :
    ∀ {l : List NodeId}, l.IsChain f.HangsFrom → (∀ i, l.head? = some i → i < f.size) →
      ∀ i ∈ l, i < f.size
  | [], _, _, i, hi => by cases hi
  | [j], _, hhead, i, hi => by
    rw [List.mem_singleton] at hi
    exact hhead i (by rw [hi]; rfl)
  | j :: c :: l, hchain, hhead, i, hi => by
    obtain ⟨hjc, hrest⟩ := List.isChain_cons_cons.1 hchain
    rcases List.mem_cons.1 hi with rfl | hi
    · exact hhead i rfl
    · refine hf.lt_size_of_mem_chain hrest (fun p hp => ?_) i hi
      obtain rfl : c = p := by simpa using hp
      exact (hf.lt_size_of_hangsFrom hjc).2

/-- A chain of parents is no longer than the forest. -/
theorem length_le_size (hf : f.Consistent) {l : List NodeId} (hchain : l.IsChain f.HangsFrom)
    (hhead : ∀ i, l.head? = some i → i < f.size) : l.length ≤ f.size := by
  have hsub : l ⊆ List.range f.size := fun i hi =>
    List.mem_range.2 (hf.lt_size_of_mem_chain hchain hhead i hi)
  simpa using ((hf.nodup_of_chain hchain).subperm hsub).length_le

/-- A node has at most as many children as there are nodes. -/
theorem length_childrenOf_le (hf : f.Consistent) (c : NodeId) :
    (f.childrenOf c).length ≤ f.size := by
  have hsub : f.childrenOf c ⊆ List.range f.size := fun i hi =>
    List.mem_range.2 (lt_size_of_parentOf ((hf.mem_childrenOf_iff i c).1 hi))
  simpa using ((hf.nodup_childrenOf c).subperm hsub).length_le

/-- Nothing below a node is further down than there are nodes. -/
theorem endsWithin (hf : f.Consistent) (c : NodeId) : f.EndsWithin (f.size + 1) c := by
  intro l hl
  cases l with
  | nil => exact Nat.succ_pos _
  | cons i l =>
    have hi : i < f.size := by
      cases l with
      | nil => exact lt_size_of_parentOf (List.isChain_cons_cons.1 hl).1
      | cons j l => exact lt_size_of_parentOf (List.isChain_cons_cons.1 hl).1
    have hle := hf.length_le_size hl fun j hj => by
      obtain rfl : i = j := by simpa using hj
      exact hi
    rw [List.length_append, List.length_singleton] at hle
    omega

/-- Nothing lies below two children of one node. -/
theorem eq_of_isBelow (hf : f.Consistent) {k i j c : NodeId} (hi : f.HangsFrom i c)
    (hj : f.HangsFrom j c) (hki : k = i ∨ f.IsBelow k i) (hkj : k = j ∨ f.IsBelow k j) :
    i = j := by
  -- if `i` were below `j`, then `c`, the parent of `i`, would be `j` or below it
  have hnot : ∀ {a b : NodeId}, f.HangsFrom a c → f.HangsFrom b c → ¬f.IsBelow a b := by
    intro a b ha hb hab
    obtain ⟨p, hp, hpb⟩ := Relation.TransGen.head'_iff.1 hab
    obtain rfl : c = p := Option.some.inj (ha.symm.trans hp)
    exact hf.acyclic c (Relation.TransGen.tail' hpb hb)
  rcases isBelow_or_isBelow hki hkj with h | h | h
  · exact h
  · exact absurd h (hnot hi hj)
  · exact absurd h (hnot hj hi)

/-! ## The way up, and the way down -/

/-- Steps up that do not reach the top make a chain of parents. -/
theorem exists_chain_of_parentOf_topFrom : ∀ {fuel : Nat} {i p : NodeId},
    f.parentOf (f.topFrom fuel i) = some p →
    ∃ l : List NodeId, l.length = fuel + 1 ∧ (i :: l).IsChain f.HangsFrom
  | 0, i, p, h => ⟨[p], rfl, List.isChain_cons_cons.2 ⟨h, List.isChain_singleton p⟩⟩
  | fuel + 1, i, p, h => by
    rw [topFrom] at h
    cases hq : f.parentOf i with
    | none =>
      simp only [hq] at h
      cases h
    | some q =>
      simp only [hq] at h
      obtain ⟨l, hlength, hchain⟩ := exists_chain_of_parentOf_topFrom h
      exact ⟨q :: l, by rw [List.length_cons, hlength], List.isChain_cons_cons.2 ⟨hq, hchain⟩⟩

/-- From every node the way up ends, at a node that hangs from nothing. -/
theorem parentOf_topFrom (hf : f.Consistent) (i : NodeId) :
    f.parentOf (f.topFrom f.size i) = none := by
  by_contra hne
  obtain ⟨p, hp⟩ := Option.ne_none_iff_exists'.1 hne
  obtain ⟨l, hlength, hchain⟩ := exists_chain_of_parentOf_topFrom hp
  have hi : i < f.size := by
    cases l with
    | nil => cases hlength
    | cons q l => exact lt_size_of_parentOf (List.isChain_cons_cons.1 hchain).1
  have hle := hf.length_le_size hchain fun j hj => by
    obtain rfl : i = j := Option.some.inj hj
    exact hi
  rw [List.length_cons] at hle
  omega

/-- A depth at which the tree below a node ends is enough to read it. -/
theorem viewTo_eq (hf : f.Consistent) : ∀ {depth depth' : Nat} {c : NodeId},
    f.EndsWithin depth c → depth ≤ depth' → f.viewTo depth' c = f.viewTo depth c
  | 0, _, _, h, _ => absurd h.pos (Nat.lt_irrefl 0)
  | depth + 1, 0, _, _, hle => absurd hle (Nat.not_succ_le_zero depth)
  | depth + 1, depth' + 1, c, h, hle => by
    rw [viewTo, viewTo]
    cases hc : f.get? c with
    | none => rfl
    | some s =>
      refine congrArg (Sheet.Tree.node s.content s.raws) (List.map_congr_left fun i hi => ?_)
      rw [← childrenOf_of_get? hc, hf.mem_childrenOf_iff] at hi
      exact hf.viewTo_eq (h.child hi) (Nat.le_of_succ_le_succ hle)

/-- To every depth beyond the size of the forest the tree below a node is the same. -/
theorem viewTo_eq_view (hf : f.Consistent) {depth : Nat} (h : f.size < depth) (c : NodeId) :
    f.viewTo depth c = f.view c :=
  hf.viewTo_eq (hf.endsWithin c) h

end Consistent

end Forest

end PixelUnit
