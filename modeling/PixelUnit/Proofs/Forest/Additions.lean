import PixelUnit.Forest.Attribute
import PixelUnit.Proofs.Forest.Moves
import PixelUnit.Proofs.Forest.Planted

/-!
# Adding to a forest

Whatever is added to a forest is a block of new nodes behind the others, the first of which has no
parent: a tree that is planted, a new node, or a copy of the tree below a node. A consistent forest
stays consistent when such a block comes in (`Consistent.of_block`), also if attributes of the new
node are set afterwards, or nodes are handed to it.
-/

namespace PixelUnit

open Sheet

namespace Forest

variable {f g h : Forest} {i c lo n : Nat} {p : Option NodeId}

/-! ## Blocks -/

/-- What hangs from a node in a block is told by the slots of the block. -/
theorem hanging_congr (h : ∀ j : Nat, lo ≤ j → j < lo + n → g.get? j = f.get? j) (c : NodeId) :
    g.hanging lo n c = f.hanging lo n c := by
  refine List.filter_congr fun j hj => ?_
  rw [List.mem_range'_1] at hj
  rw [parentOf_congr (h j hj.1 hj.2)]

/-- Only the nodes of a block matter. -/
theorem IsBlock.congr (hf : f.IsBlock lo n p)
    (h : ∀ j : Nat, lo ≤ j → j < lo + n → g.get? j = f.get? j) : g.IsBlock lo n p where
  childrenOf_eq c hc hlt := by
    rw [childrenOf_congr (h c hc hlt), hanging_congr h, hf.childrenOf_eq c hc hlt]
  parentOf_eq j hj hlt := by
    rw [parentOf_congr (h j hj hlt)]
    exact hf.parentOf_eq j hj hlt
  isContainer c hc hlt := by
    rw [childrenOf_congr (h c hc hlt), isContainer_congr (h c hc hlt)]
    exact hf.isContainer c hc hlt
  cursors_eq j s hj hlt hs := hf.cursors_eq j s hj hlt ((h j hj hlt).symm.trans hs)

theorem isBlock_zero (f : Forest) (lo : Nat) (p : Option NodeId) : f.IsBlock lo 0 p := by
  have hempty : ∀ {P : Prop} (j : Nat), lo ≤ j → j < lo + 0 → P := fun j hj hlt =>
    absurd hlt (Nat.not_lt_of_le hj)
  exact ⟨fun j hj hlt => hempty j hj hlt, fun j hj hlt => hempty j hj hlt,
    fun j hj hlt => hempty j hj hlt, fun j _ hj hlt => hempty j hj hlt⟩

namespace Grown

/-- What hangs from a node of the forest hung from it before, and a new node hangs from a new one
in front of it. -/
theorem parentOf_cases (hgrown : Grown f g n) (hblock : g.IsBlock f.size n none) {i c : Nat}
    (hic : g.parentOf i = some c) : i < f.size ∧ f.parentOf i = some c ∨
      f.size ≤ i ∧ i < f.size + n ∧ f.size ≤ c ∧ c < i := by
  have hi := lt_size_of_parentOf hic
  rw [hgrown.size_eq] at hi
  by_cases hold : i < f.size
  · rw [parentOf_congr (hgrown.get?_eq i hold)] at hic
    exact Or.inl ⟨hold, hic⟩
  · refine Or.inr ⟨Nat.le_of_not_lt hold, hi, ?_⟩
    rcases hblock.parentOf_eq i (Nat.le_of_not_lt hold) hi with hnone | ⟨d, hd, hle, hlt⟩
    · rw [hnone] at hic
      cases hic
    · obtain rfl : d = c := Option.some.inj (hd.symm.trans hic)
      exact ⟨hle, hlt⟩

/-- A node is one of the forest, or one of the block, or has no children. -/
theorem childrenOf_cases (hgrown : Grown f g n) (c : Nat) :
    g.get? c = f.get? c ∨ f.size ≤ c ∧ c < f.size + n ∨ g.childrenOf c = [] := by
  by_cases hold : c < f.size
  · exact Or.inl (hgrown.get?_eq c hold)
  · by_cases hc : c < g.size
    · exact Or.inr (Or.inl ⟨Nat.le_of_not_lt hold, by rwa [← hgrown.size_eq]⟩)
    · exact Or.inr (Or.inr (List.eq_nil_iff_forall_not_mem.2 fun i hi =>
        hc (lt_size_of_mem_childrenOf hi)))

/-- Nodes of a forest that has grown by a detached block: what hangs below an old node hung there
before, and what hangs below a node of the block is behind it. -/
theorem isBelow_cases (hf : f.Consistent) (hgrown : Grown f g n)
    (hblock : g.IsBlock f.size n none) {i c : Nat} (hic : g.IsBelow i c) :
    i < f.size ∧ f.IsBelow i c ∨ f.size ≤ c ∧ c < i := by
  induction hic with
  | single h =>
    rcases hgrown.parentOf_cases hblock h with ⟨hi, h⟩ | ⟨-, -, hle, hlt⟩
    · exact Or.inl ⟨hi, Relation.TransGen.single h⟩
    · exact Or.inr ⟨hle, hlt⟩
  | @tail b c _ hbc ih =>
    rcases hgrown.parentOf_cases hblock hbc with ⟨hb, h⟩ | ⟨hb, -, hle, hlt⟩
    · rcases ih with ⟨hi, ih⟩ | ⟨hle, -⟩
      · exact Or.inl ⟨hi, ih.tail h⟩
      · exact absurd hb (Nat.not_lt_of_le hle)
    · rcases ih with ⟨hi, ih⟩ | ⟨-, hbi⟩
      · obtain ⟨d, -, hdb⟩ := Relation.TransGen.tail'_iff.1 ih
        exact absurd (hf.lt_size_of_hangsFrom hdb).2 (Nat.not_lt_of_le hb)
      · exact Or.inr ⟨hle, hlt.trans hbi⟩

/-- The children of a node are the nodes with that parent, in the forest and in the block. -/
theorem mem_childrenOf_iff (hf : f.Consistent) (hgrown : Grown f g n)
    (hblock : g.IsBlock f.size n none) (i c : Nat) :
    i ∈ g.childrenOf c ↔ g.parentOf i = some c := by
  by_cases hold : c < f.size
  · rw [childrenOf_congr (hgrown.get?_eq c hold), hf.mem_childrenOf_iff]
    constructor
    · intro hi
      rw [parentOf_congr (hgrown.get?_eq i (lt_size_of_parentOf hi))]
      exact hi
    · intro hi
      rcases hgrown.parentOf_cases hblock hi with ⟨-, h⟩ | ⟨-, -, hle, -⟩
      · exact h
      · exact absurd hold (Nat.not_lt_of_le hle)
  · have hle := Nat.le_of_not_lt hold
    constructor
    · intro hi
      have hc := lt_size_of_mem_childrenOf hi
      rw [hblock.childrenOf_eq c hle (by rwa [← hgrown.size_eq]), hanging, List.mem_filter,
        beq_iff_eq] at hi
      exact hi.2
    · intro hi
      rcases hgrown.parentOf_cases hblock hi with ⟨hlt, h⟩ | ⟨hi', hlt, -, hci⟩
      · exact absurd (hf.lt_size_of_hangsFrom h).2 hold
      · rw [hblock.childrenOf_eq c hle (hci.trans hlt), hanging, List.mem_filter, beq_iff_eq,
          List.mem_range'_1]
        exact ⟨⟨hi', hlt⟩, hi⟩

end Grown

/-- A block behind a consistent forest makes no difference to it. -/
theorem Consistent.of_block (hf : f.Consistent) (hgrown : Grown f g n)
    (hblock : g.IsBlock f.size n none) : g.Consistent where
  mem_childrenOf_iff := hgrown.mem_childrenOf_iff hf hblock
  nodup_childrenOf c := by
    rcases hgrown.childrenOf_cases c with hsame | ⟨hle, hlt⟩ | hnone
    · rw [childrenOf_congr hsame]
      exact hf.nodup_childrenOf c
    · rw [hblock.childrenOf_eq c hle hlt]
      exact List.Nodup.filter _ List.nodup_range'
    · rw [hnone]
      exact List.nodup_nil
  isContainer_of_mem i c hi := by
    rcases hgrown.childrenOf_cases c with hsame | ⟨hle, hlt⟩ | hnone
    · rw [childrenOf_congr hsame] at hi
      rw [isContainer_congr hsame]
      exact hf.isContainer_of_mem i c hi
    · exact hblock.isContainer c hle hlt (List.ne_nil_of_mem hi)
    · rw [hnone] at hi
      cases hi
  acyclic i hi := by
    rcases hgrown.isBelow_cases hf hblock hi with ⟨-, h⟩ | ⟨-, hlt⟩
    · exact hf.acyclic i h
    · exact Nat.lt_irrefl i hlt
  keysGiven i s hs k hk := by
    by_cases hold : i < f.size
    · rw [hgrown.get?_eq i hold] at hs
      exact hf.keysGiven i s hs k hk
    · have hlt := lt_size_of_get? hs
      rw [hgrown.size_eq] at hlt
      rw [hblock.cursors_eq i s (Nat.le_of_not_lt hold) hlt hs] at hk
      cases hk

/-- A tree is planted. -/
theorem Consistent.plant (hf : f.Consistent) {t : Tree} (ht : t.All Tree.Branches) :
    (f.plant none t).2.Consistent := by
  obtain ⟨-, hgrown, hholds⟩ := plant_holds t f none
  exact hf.of_block hgrown (hholds.isBlock ht nofun).1

/-! ## New nodes -/

theorem grown_add (f : Forest) (t : Slot) : Grown f (f.add t).2 1 where
  size_eq := size_add f t
  get?_eq j hj := by rw [get?_add, if_neg (Nat.ne_of_lt hj)]

/-- A node without children and parent comes in. -/
theorem Consistent.add (hf : f.Consistent) {t : Slot} (hparent : t.parent = none)
    (hchildren : t.children = []) (hcursors : t.cursors = []) : (f.add t).2.Consistent := by
  have ht : (f.add t).2.get? f.size = some t := by rw [get?_add, if_pos rfl]
  refine hf.of_block (grown_add f t) ?_
  rw [← hparent]
  exact IsBlock.cons (n := 0) ht hcursors (by simp [hparent]) (by rw [hchildren]; rfl)
    (fun h => absurd hchildren h) (isBlock_zero _ _ _)

/-- Nodes handed one by one to a container that nothing is above. -/
theorem Consistent.appendEach : ∀ {children : List NodeId} {f : Forest}, f.Consistent →
    (∀ j ∈ children, j < f.size ∧ j ≠ i ∧ f.isContainer i = true) → f.parentOf i = none →
    children.forM (fun j => Forest.append i [j]) f = .ok () g → g.Consistent
  | [], f, hf, _, _, h => by
    cases h
    exact hf
  | j :: children, f, hf, hchildren, hi, h => by
    obtain ⟨hj, hne, hcontainer⟩ := hchildren j List.mem_cons_self
    obtain ⟨⟨⟩, e, happend, hrest⟩ := Edit.exists_of_bind_ok h
    have hadopt : f.MayAdopt i [j] := mayAdopt_of_parentOf hi (by simpa using ⟨hj, hne⟩)
    obtain ⟨he, hfe⟩ := hf.append hcontainer hadopt happend
    refine he.appendEach (fun k hk => ?_) ?_ hrest
    · obtain ⟨hk, hki, hkind⟩ := hchildren k (List.mem_cons_of_mem j hk)
      exact ⟨hfe.size_eq ▸ hk, hki, (hfe.isContainer_eq i).trans hkind⟩
    · rw [hfe.parentOf_eq i (by simpa using Ne.symm hne)]
      exact hi

/-- A new node, to which children are moved. -/
theorem Consistent.create (hf : f.Consistent) {content : Content} {raws : Raws}
    {children : List NodeId} (hchildren : ∀ j ∈ children, j < f.size)
    (hcontent : children ≠ [] → content.isContainer = true)
    (h : Forest.create content raws children f = .ok i g) : g.Consistent := by
  unfold Forest.create at h
  rw [Edit.bind_ok (Edit.modifyGet_apply _)] at h
  obtain ⟨⟨⟩, e, heach, hrest⟩ := Edit.exists_of_bind_ok h
  cases hrest
  have hself : (f.add { content, raws }).2.get? f.size = some { content, raws } := by
    rw [get?_add, if_pos rfl]
  have hadded : (f.add { content, raws }).2.Consistent := hf.add rfl rfl rfl
  refine hadded.appendEach (fun j hj => ⟨?_, ?_, ?_⟩) (parentOf_of_get? hself) heach
  · rw [size_add]
    exact Nat.lt_succ_of_lt (hchildren j hj)
  · exact Nat.ne_of_lt (hchildren j hj)
  · unfold isContainer
    rw [contentOf_of_get? hself]
    exact hcontent (List.ne_nil_of_mem hj)

/-! ## Copies -/

/-- A node is copied before its children, whose copies are put below it then. -/
theorem copyTo_of_get? {e : Forest} {s : Slot} (hs : e.get? i = some s) (p : Option NodeId)
    (depth : Nat) :
    e.copyTo p (depth + 1) i =
      (e.size, ((e.add { s with parent := p, children := [], cursors := [] }).2.copyAllTo e.size
        depth s.children).2.update e.size fun t => { t with
          children := ((e.add { s with parent := p, children := [], cursors := [] }).2.copyAllTo
            e.size depth s.children).1 }) := by
  rw [copyTo, hs]
  rfl

theorem copyAllTo_nil (e : Forest) (q : NodeId) (depth : Nat) :
    e.copyAllTo q depth [] = ([], e) := by
  rw [copyAllTo]

theorem Grown.refl (f : Forest) : Grown f f 0 :=
  ⟨rfl, fun _ _ => rfl⟩

/-- A forest that grows twice grows by both numbers of nodes. -/
theorem Grown.trans {m : Nat} (hfg : Grown f g m) (hgh : Grown g h n) : Grown f h (m + n) where
  size_eq := by rw [hgh.size_eq, hfg.size_eq, Nat.add_assoc]
  get?_eq j hj := by
    rw [hgh.get?_eq j (hfg.size_eq ▸ Nat.lt_add_right m hj), hfg.get?_eq j hj]

/-- What copies add to `e`: a block, whose nodes `ids` hang from `p`. -/
structure Copied (e : Forest) (p : Option NodeId) (ids : List NodeId) (g : Forest) (n : Nat) :
    Prop where
  grown : Grown e g n
  isBlock : g.IsBlock e.size n p
  hanging_eq : ∀ q : Nat, p = some q → g.hanging e.size n q = ids

/-- The tree below a node of `f` can be copied in every forest that `f` has grown to. -/
def CopiesTree (f : Forest) (depth : Nat) : Prop :=
  ∀ (i : NodeId) (e : Forest) (k : Nat) (p : Option NodeId), f.EndsWithin depth i → i < f.size →
    Grown f e k → (∀ q : Nat, p = some q → q < e.size) →
    ∃ n, (e.copyTo p depth i).1 = e.size ∧ Copied e p [e.size] (e.copyTo p depth i).2 n

/-- If the tree below a node can be copied, so can trees side by side, into one block. -/
theorem copyAllTo_copied {depth : Nat} (hcopies : CopiesTree f depth) :
    ∀ (is : List NodeId) (e : Forest) (k : Nat) (q : NodeId),
      (∀ i ∈ is, f.EndsWithin depth i ∧ i < f.size) → Grown f e k → q < e.size →
      ∃ n, Copied e (some q) (e.copyAllTo q depth is).1 (e.copyAllTo q depth is).2 n
  | [], e, k, q, _, _, _ => by
    rw [copyAllTo_nil]
    exact ⟨0, Grown.refl e, isBlock_zero e _ _, fun _ _ => rfl⟩
  | i :: is, e, k, q, his, he, hq => by
    obtain ⟨hdepth, hi⟩ := his i List.mem_cons_self
    obtain ⟨m, hfirst, hm⟩ := hcopies i e k (some q) hdepth hi he fun d hd => by
      obtain rfl := Option.some.inj hd
      exact hq
    have hq' : q < (e.copyTo (some q) depth i).2.size :=
      hm.grown.size_eq ▸ Nat.lt_add_right m hq
    obtain ⟨n, hn⟩ := copyAllTo_copied hcopies is (e.copyTo (some q) depth i).2 (k + m) q
      (fun j hj => his j (List.mem_cons_of_mem i hj)) (he.trans hm.grown) hq'
    unfold copyAllTo
    dsimp only
    rw [hfirst]
    generalize (e.copyTo (some q) depth i).2 = g at hm hn
    generalize g.copyAllTo q depth is = r at hn
    have hsame : ∀ j : Nat, e.size ≤ j → j < e.size + m → r.2.get? j = g.get? j := fun j _ hlt =>
      hn.grown.get?_eq j (hm.grown.size_eq ▸ hlt)
    have hblock := hn.isBlock
    have hhanging := hn.hanging_eq q rfl
    rw [hm.grown.size_eq] at hblock hhanging
    refine ⟨m + n, hm.grown.trans hn.grown, (hm.isBlock.congr hsame).append hq hblock,
      fun d hd => ?_⟩
    obtain rfl := Option.some.inj hd
    rw [hanging_append, hanging_congr hsame, hm.hanging_eq q rfl, hhanging]
    rfl

/-- Every tree can be copied, wherever the forest has grown to. The induction is on the depth at
which the trees end, so that the children are copied by the hypothesis for one less. -/
theorem Consistent.copiesTree (hf : f.Consistent) : ∀ depth : Nat, CopiesTree f depth
  | 0, i, e, k, p, hdepth, _, _, _ => absurd hdepth.pos (Nat.lt_irrefl 0)
  | depth + 1, i, e, k, p, hdepth, hi, he, hp => by
    obtain ⟨s, hs⟩ := get?_eq_some_of_lt hi
    have hes : e.get? i = some s := (he.get?_eq i hi).trans hs
    have hchildren : ∀ j ∈ s.children, f.EndsWithin depth j ∧ j < f.size := by
      intro j hj
      rw [← childrenOf_of_get? hs, hf.mem_childrenOf_iff] at hj
      exact ⟨hdepth.child hj, (hf.lt_size_of_hangsFrom hj).1⟩
    -- The slot of the copy comes first, with no children yet, and then the copies of the children.
    have hadd := grown_add e { s with parent := p, children := [], cursors := [] }
    obtain ⟨n, hn⟩ := copyAllTo_copied (hf.copiesTree depth) s.children
      (e.add { s with parent := p, children := [], cursors := [] }).2 (k + 1) e.size hchildren
      (he.trans hadd) (by rw [size_add]; exact Nat.lt_succ_self _)
    rw [copyTo_of_get? hes]
    have hnone : s.children = [] → ((e.add { s with parent := p, children := [], cursors := [] }
        ).2.copyAllTo e.size depth s.children).1 = [] := fun h => by
      rw [h, copyAllTo_nil]
    have hself : (e.add { s with parent := p, children := [], cursors := [] }).2.get? e.size =
        some { s with parent := p, children := [], cursors := [] } := by
      rw [get?_add, if_pos rfl]
    generalize (e.add { s with parent := p, children := [], cursors := [] }).2 = g at *
    generalize g.copyAllTo e.size depth s.children = r at *
    have hsize : g.size = e.size + 1 := hadd.size_eq
    have hblock := hn.isBlock
    have hhanging := hn.hanging_eq e.size rfl
    rw [hsize] at hblock hhanging
    -- The copy gets its children in the end, which leaves the slots behind it as they are.
    have hlater : ∀ j : Nat, e.size + 1 ≤ j → j < e.size + 1 + n →
        (r.2.update e.size fun t => { t with children := r.1 }).get? j = r.2.get? j :=
      fun j hj _ => get?_update_of_ne _ (Nat.ne_of_lt hj)
    have hnew : (r.2.update e.size fun t => { t with children := r.1 }).get? e.size =
        some { s with parent := p, children := r.1, cursors := [] } := by
      rw [get?_update_self, hn.grown.get?_eq e.size (hsize ▸ Nat.lt_succ_self _), hself]
      rfl
    -- So the new nodes are a block: the copy, and behind it the block of its children.
    have hcons := IsBlock.cons hnew rfl hp (hhanging.symm.trans (hanging_congr hlater _).symm)
      (fun hne => ?_) (hblock.congr hlater)
    · refine ⟨1 + n, rfl, ⟨?_, fun j hj => ?_⟩, hcons, fun q hq => ?_⟩
      · rw [size_update, hn.grown.size_eq, hsize, Nat.add_assoc]
      · rw [get?_update_of_ne _ (Nat.ne_of_gt hj), hn.grown.get?_eq j (by omega),
          hadd.get?_eq j hj]
      · have hparent : (r.2.update e.size fun t => { t with children := r.1 }).parentOf e.size =
            some q := (parentOf_of_get? hnew).trans hq
        rw [hanging_append, hanging_one hparent, hanging_congr hlater,
          hblock.hanging_eq_nil (hp q hq) (Nat.lt_succ_self _)]
        rfl
    -- A copy with children is a container, since its original is one.
    · have hinner : f.childrenOf i ≠ [] := fun h =>
        hne (hnone ((childrenOf_of_get? hs).symm.trans h))
      obtain ⟨j, hj⟩ := List.exists_mem_of_ne_nil _ hinner
      have hcontainer := hf.isContainer_of_mem j i hj
      rw [isContainer, contentOf_of_get? hs] at hcontainer
      exact hcontainer

/-- Setting a field of a node does not change whether it is a container. -/
theorem isContainer_of_setIn? {a : Attribute} {content content' : Content}
    (h : a.setIn? content = some content') : content'.isContainer = content.isContainer := by
  cases a <;> cases content <;> cases h <;> rfl

/-- Setting an attribute of a node keeps what kind of node it is. -/
theorem keeps_set (s : Slot) (a : Attribute) : s.Keeps (s.set a) := by
  unfold Slot.set
  cases hset : s.set? a with
  | none => exact ⟨rfl, rfl, Nat.le_refl _⟩
  | some t =>
    rcases Slot.eq_of_set? hset with ⟨raws, rfl⟩ | ⟨content, hcontent, rfl⟩
    · exact ⟨rfl, rfl, Nat.le_refl _⟩
    · refine ⟨?_, rfl, Nat.le_refl _⟩
      show (s.parent, s.children, content.isContainer) = s.shape
      rw [isContainer_of_setIn? hcontent]
      rfl

/-- Setting an attribute keeps all places and cursors. -/
theorem kept_set (f : Forest) (i : NodeId) (a : Attribute) : Kept f (f.update i (·.set a)) := by
  intro j
  rw [get?_update]
  split
  · cases f.get? j with
    | none => exact .none
    | some s => exact .some (keeps_set s a)
  · exact Kept.refl f j

/-- Attributes set one after the other leave a forest consistent. -/
theorem Consistent.overrideAll : ∀ {as : List Attribute} {f : Forest}, f.Consistent →
    Forest.overrideAll i as f = .ok () g → g.Consistent
  | [], f, hf, h => by
    cases h
    exact hf
  | a :: as, f, hf, h => by
    unfold Forest.overrideAll at h
    rw [Edit.get_bind_apply] at h
    cases hi : f.get? i with
    | none =>
      rw [hi] at h
      cases h
      exact hf
    | some s =>
      rw [hi] at h
      dsimp only at h
      cases hhas : s.has a with
      | true =>
        rw [hhas, if_pos rfl, setAttribute, Edit.bind_ok (Edit.modify_apply _)] at h
        exact ((kept_set f i a).consistent hf).overrideAll h
      | false =>
        rw [hhas] at h
        cases h

/-- A copy of the tree below a node. -/
theorem Consistent.clone (hf : f.Consistent) {overrides : List Attribute} {j : NodeId}
    (hi : i < f.size) (h : Forest.clone i overrides f = .ok j g) : g.Consistent := by
  unfold Forest.clone at h
  rw [Edit.bind_ok (Edit.modifyGet_apply _)] at h
  obtain ⟨⟨⟩, e, hoverride, hrest⟩ := Edit.exists_of_bind_ok h
  cases hrest
  obtain ⟨n, -, hcopied⟩ := hf.copiesTree (f.size + 1) i f 0 none (hf.endsWithin i) hi
    (Grown.refl f) nofun
  exact (hf.of_block hcopied.grown hcopied.isBlock).overrideAll hoverride

end Forest

end PixelUnit
