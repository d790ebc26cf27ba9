import PixelUnit.Proofs.Forest.Walk
import PixelUnit.Proofs.Sheet.Trees

/-!
# Planted trees

A tree that is added to a forest takes up a block of new numbers, every node before its children
(`Forest.Holds`, `plant_holds`). What was planted can be read again (`view_of_holds`), and a forest
that holds one tree and nothing else is consistent (`consistent_of_holds`).
-/

namespace PixelUnit

open Sheet

namespace Forest

variable {f g : Forest} {p : Option NodeId} {i j c q : Nat}

/-- Where trees start that stand one behind the other. -/
def places (i : Nat) : List Tree → List NodeId
  | [] => []
  | t :: ts => i :: places (i + t.size) ts

mutual

/-- A forest has a tree in the block of nodes that starts at `i`. -/
def Holds (f : Forest) (parent : Option NodeId) (i : Nat) : Tree → Prop
  | .node content raws ts =>
    f.get? i = some { content, raws, parent, children := places (i + 1) ts } ∧
      HoldsAll f i (i + 1) ts

/-- A forest has trees below a parent, in the block of nodes that starts at `i`. -/
def HoldsAll (f : Forest) (parent i : Nat) : List Tree → Prop
  | [] => True
  | t :: ts => Holds f (some parent) i t ∧ HoldsAll f parent (i + t.size) ts

end

/-! ## Planting -/

mutual

/-- Only the block matters. -/
theorem Holds.congr : ∀ {t : Tree} {p : Option NodeId} {i : Nat}, f.Holds p i t →
    (∀ j : Nat, i ≤ j → j < i + t.size → g.get? j = f.get? j) → g.Holds p i t
  | .node content raws ts, p, i, hf, h => by
    have hsize : (Sheet.Tree.node content raws ts).size = Tree.sizes ts + 1 := rfl
    refine ⟨(h i (Nat.le_refl i) (by omega)).trans hf.1, HoldsAll.congr hf.2 fun j hj hlt => ?_⟩
    exact h j (by omega) (by omega)

/-- Whether a forest has trees in a block is told by the slots of the block. -/
theorem HoldsAll.congr : ∀ {ts : List Tree} {q i : Nat}, f.HoldsAll q i ts →
    (∀ j : Nat, i ≤ j → j < i + Tree.sizes ts → g.get? j = f.get? j) → g.HoldsAll q i ts
  | [], _, _, _, _ => trivial
  | t :: ts, q, i, hf, h => by
    have hsize : Tree.sizes (t :: ts) = t.size + Tree.sizes ts := rfl
    refine ⟨Holds.congr hf.1 fun j hj hlt => ?_, HoldsAll.congr hf.2 fun j hj hlt => ?_⟩
    · exact h j hj (by omega)
    · exact h j (by omega) (by omega)

end

/-- What planting does: the block of the new nodes starts behind the others, which stay as they
are. -/
structure Grown (f g : Forest) (n : Nat) : Prop where
  size_eq : g.size = f.size + n
  get?_eq : ∀ j : Nat, j < f.size → g.get? j = f.get? j

/-- A tree is planted as a slot for its top, whose children are planted behind it. -/
theorem plant_node (f : Forest) (p : Option NodeId) (content : Content) (raws : Raws)
    (ts : List Tree) :
    f.plant p (.node content raws ts) =
      (f.size, ((f.add { content, raws, parent := p }).2.plantAll f.size ts).2.update f.size
        fun s => { s with
          children := ((f.add { content, raws, parent := p }).2.plantAll f.size ts).1 }) :=
  rfl

mutual

/-- Planting a tree leaves a forest that has it in the block behind the old nodes. -/
theorem plant_holds : ∀ (t : Tree) (f : Forest) (p : Option NodeId),
    (f.plant p t).1 = f.size ∧ Grown f (f.plant p t).2 t.size ∧
      (f.plant p t).2.Holds p f.size t
  | .node content raws ts, f, p => by
    obtain ⟨hids, hgrown, hholds⟩ :=
      plantAll_holds ts (f.add { content, raws, parent := p }).2 f.size
    rw [plant_node]
    generalize he : (f.add { content, raws, parent := p }).2 = e at *
    generalize e.plantAll f.size ts = r at *
    have hsize : e.size = f.size + 1 := by
      rw [← he, size_add]
    have hself : e.get? f.size = some { content, raws, parent := p } := by
      rw [← he, get?_add, if_pos rfl]
    have hother : ∀ j : Nat, j < f.size → e.get? j = f.get? j := by
      intro j hj
      rw [← he, get?_add, if_neg (Nat.ne_of_lt hj)]
    rw [hsize] at hids hholds
    refine ⟨rfl, ⟨?_, fun j hj => ?_⟩, ?_, ?_⟩
    · rw [size_update, hgrown.size_eq, hsize, Nat.add_right_comm]
      rfl
    · rw [get?_update_of_ne _ (Nat.ne_of_gt hj), hgrown.get?_eq j (by omega), hother j hj]
    · rw [get?_update_self, hgrown.get?_eq _ (by omega), hself, hids]
      rfl
    · exact hholds.congr fun j hj _ => get?_update_of_ne _ (Nat.ne_of_lt hj)

/-- Planting trees side by side leaves a forest that has them in the block behind the old nodes. -/
theorem plantAll_holds : ∀ (ts : List Tree) (f : Forest) (q : Nat),
    (f.plantAll q ts).1 = places f.size ts ∧ Grown f (f.plantAll q ts).2 (Tree.sizes ts) ∧
      (f.plantAll q ts).2.HoldsAll q f.size ts
  | [], f, q => ⟨rfl, ⟨rfl, fun _ _ => rfl⟩, trivial⟩
  | t :: ts, f, q => by
    obtain ⟨hi, hgrown, hholds⟩ := plant_holds t f (some q)
    obtain ⟨hids, hgrown', hholds'⟩ := plantAll_holds ts (f.plant (some q) t).2 q
    rw [hgrown.size_eq] at hids hholds'
    refine ⟨?_, ⟨?_, fun j hj => ?_⟩, ?_, hholds'⟩
    · show (f.plant (some q) t).1 :: (Forest.plantAll _ q ts).1 = f.size :: places _ ts
      rw [hi, hids]
    · show (Forest.plantAll _ q ts).2.size = _
      rw [hgrown'.size_eq, hgrown.size_eq, Nat.add_assoc]
      rfl
    · show (Forest.plantAll _ q ts).2.get? j = _
      rw [hgrown'.get?_eq j (by rw [hgrown.size_eq]; omega), hgrown.get?_eq j hj]
    · refine hholds.congr fun j _ hlt => hgrown'.get?_eq j ?_
      rw [hgrown.size_eq]
      exact hlt

end

/-! ## Reading -/

mutual

/-- A tree in a forest is what is seen there. -/
theorem Holds.viewTo_eq : ∀ {t : Tree} {p : Option NodeId} {i depth : Nat}, f.Holds p i t →
    t.size ≤ depth → f.viewTo depth i = t
  | .node content raws ts, _, _, 0, _, h => absurd h (Nat.not_succ_le_zero _)
  | .node content raws ts, p, i, depth + 1, hf, h => by
    rw [viewTo, hf.1]
    exact congrArg (Sheet.Tree.node content raws)
      (HoldsAll.map_viewTo hf.2 (Nat.le_of_succ_le_succ h))

theorem HoldsAll.map_viewTo : ∀ {ts : List Tree} {q i depth : Nat}, f.HoldsAll q i ts →
    Tree.sizes ts ≤ depth → (places i ts).map (f.viewTo depth) = ts
  | [], _, _, _, _, _ => rfl
  | t :: ts, q, i, depth, hf, h => by
    have hsize : Tree.sizes (t :: ts) = t.size + Tree.sizes ts := rfl
    rw [places, List.map_cons, Holds.viewTo_eq hf.1 (by omega),
      HoldsAll.map_viewTo hf.2 (by omega)]

end

/-! ## A block of nodes -/

/-- The nodes of a block that hang from `c`. -/
def hanging (f : Forest) (lo n : Nat) (c : NodeId) : List NodeId :=
  (List.range' lo n).filter fun j => f.parentOf j == some c

theorem hanging_append (f : Forest) (lo m n : Nat) (c : NodeId) :
    f.hanging lo (m + n) c = f.hanging lo m c ++ f.hanging (lo + m) n c := by
  unfold hanging
  rw [← List.filter_append, List.range'_append_1]

/-- Nothing hangs from a node in a block where no parent link names it. -/
theorem hanging_eq_nil {lo n : Nat}
    (h : ∀ j : Nat, lo ≤ j → j < lo + n → f.parentOf j ≠ some c) : f.hanging lo n c = [] := by
  unfold hanging
  refine List.filter_eq_nil_iff.2 fun j hj => ?_
  rw [List.mem_range'_1] at hj
  rw [beq_iff_eq]
  exact h j hj.1 hj.2

/-- What is known of the nodes of a block: what hangs from a node of the block is what its list of
children says, all nodes of the block hang from the node `p` outside or from an earlier one in it,
only containers have children and no iterations run. -/
structure IsBlock (f : Forest) (lo n : Nat) (p : Option NodeId) : Prop where
  childrenOf_eq : ∀ c : Nat, lo ≤ c → c < lo + n → f.childrenOf c = f.hanging lo n c
  parentOf_eq : ∀ j : Nat, lo ≤ j → j < lo + n →
    f.parentOf j = p ∨ ∃ c : Nat, f.parentOf j = some c ∧ lo ≤ c ∧ c < j
  isContainer : ∀ c : Nat, lo ≤ c → c < lo + n → f.childrenOf c ≠ [] → f.isContainer c = true
  cursors_eq : ∀ (j : Nat) (s : Slot), lo ≤ j → j < lo + n → f.get? j = some s → s.cursors = []

/-- Two blocks behind what they hang from make a block. -/
theorem IsBlock.append {lo m n q : Nat} (hq : q < lo) (h₁ : f.IsBlock lo m (some q))
    (h₂ : f.IsBlock (lo + m) n (some q)) : f.IsBlock lo (m + n) (some q) where
  childrenOf_eq c hc hlt := by
    rw [hanging_append]
    by_cases hm : c < lo + m
    · rw [h₁.childrenOf_eq c hc hm, @hanging_eq_nil f c (lo + m) n, List.append_nil]
      intro j hj hlt' hparent
      rcases h₂.parentOf_eq j hj hlt' with h | ⟨d, h, hd, -⟩
      · obtain rfl : q = c := Option.some.inj (h.symm.trans hparent)
        omega
      · obtain rfl : d = c := Option.some.inj (h.symm.trans hparent)
        omega
    · rw [h₂.childrenOf_eq c (by omega) (by omega), @hanging_eq_nil f c lo m, List.nil_append]
      intro j hj hlt' hparent
      rcases h₁.parentOf_eq j hj hlt' with h | ⟨d, h, -, hd⟩
      · obtain rfl : q = c := Option.some.inj (h.symm.trans hparent)
        omega
      · obtain rfl : d = c := Option.some.inj (h.symm.trans hparent)
        omega
  parentOf_eq j hj hlt := by
    by_cases hm : j < lo + m
    · exact h₁.parentOf_eq j hj hm
    · rcases h₂.parentOf_eq j (by omega) (by omega) with h | ⟨d, h, hd, hlt'⟩
      · exact Or.inl h
      · exact Or.inr ⟨d, h, by omega, hlt'⟩
  isContainer c hc hlt := by
    by_cases hm : c < lo + m
    · exact h₁.isContainer c hc hm
    · exact h₂.isContainer c (by omega) (by omega)
  cursors_eq j s hj hlt := by
    by_cases hm : j < lo + m
    · exact h₁.cursors_eq j s hj hm
    · exact h₂.cursors_eq j s (by omega) (by omega)

theorem hanging_one (h : f.parentOf i = some q) : f.hanging i 1 q = [i] := by
  unfold hanging
  rw [List.range'_one, List.filter_singleton, h, beq_self_eq_true]
  rfl

theorem hanging_one_eq_nil (h : f.parentOf i ≠ some q) : f.hanging i 1 q = [] :=
  hanging_eq_nil fun j hj hlt => by
    obtain rfl : i = j := by omega
    exact h

/-- A node in front of the block of its children makes a block with them. -/
theorem IsBlock.cons {s : Slot} {n : Nat} (hs : f.get? i = some s) (hcursors : s.cursors = [])
    (hparent : ∀ q : Nat, s.parent = some q → q < i)
    (hchildren : s.children = f.hanging (i + 1) n i)
    (hcontainer : s.children ≠ [] → s.content.isContainer = true)
    (h : f.IsBlock (i + 1) n (some i)) : f.IsBlock i (1 + n) s.parent := by
  have hp : f.parentOf i = s.parent := parentOf_of_get? hs
  have hc : f.childrenOf i = s.children := childrenOf_of_get? hs
  refine ⟨fun c hle hlt => ?_, fun j hj hlt => ?_, fun c hle hlt hne => ?_, fun j t hj hlt ht => ?_⟩
  · have hfirst : f.hanging i 1 c = [] := hanging_one_eq_nil fun hi => by
      have := hparent c (hp.symm.trans hi)
      omega
    rw [hanging_append, hfirst, List.nil_append]
    rcases Nat.eq_or_lt_of_le hle with rfl | hlt'
    · rw [hc, hchildren]
    · exact h.childrenOf_eq c hlt' (by omega)
  · rcases Nat.eq_or_lt_of_le hj with rfl | hlt'
    · exact Or.inl hp
    · rcases h.parentOf_eq j hlt' (by omega) with hji | ⟨d, hjd, hd, hdj⟩
      · exact Or.inr ⟨i, hji, Nat.le_refl i, hlt'⟩
      · exact Or.inr ⟨d, hjd, by omega, hdj⟩
  · rcases Nat.eq_or_lt_of_le hle with rfl | hlt'
    · unfold Forest.isContainer contentOf
      rw [hs]
      exact hcontainer (hc ▸ hne)
    · exact h.isContainer c hlt' (by omega) hne
  · rcases Nat.eq_or_lt_of_le hj with rfl | hlt'
    · obtain rfl : s = t := Option.some.inj (hs.symm.trans ht)
      exact hcursors
    · exact h.cursors_eq j t hlt' (by omega) ht

/-- Nothing in a block hangs from a node before the one that the block hangs from. -/
theorem IsBlock.hanging_eq_nil {lo n q : Nat} (h : f.IsBlock lo n (some c)) (hq : q < c)
    (hc : c < lo) : f.hanging lo n q = [] := by
  refine Forest.hanging_eq_nil fun j hj hlt hparent => ?_
  rcases h.parentOf_eq j hj hlt with h | ⟨d, h, hd, -⟩
  · obtain rfl : c = q := Option.some.inj (h.symm.trans hparent)
    exact Nat.lt_irrefl c hq
  · obtain rfl : d = q := Option.some.inj (h.symm.trans hparent)
    omega

mutual

/-- A tree in a block, with the nodes in which its parent and its children agree. -/
theorem Holds.isBlock : ∀ {t : Tree} {p : Option NodeId} {i : Nat}, f.Holds p i t →
    t.All Tree.Branches → (∀ q : Nat, p = some q → q < i) →
    f.IsBlock i t.size p ∧ ∀ q, p = some q → f.hanging i t.size q = [i]
  | .node content raws ts, p, i, hf, hall, hp => by
    obtain ⟨hblock, hplaces⟩ := HoldsAll.isBlock hf.2 hall.2 (Nat.lt_succ_self i)
    have hcontainer : places (i + 1) ts ≠ [] → content.isContainer = true := by
      cases ts with
      | nil => exact fun h => absurd rfl h
      | cons t ts => exact fun _ => hall.1 (List.cons_ne_nil t ts)
    have hsize : (Sheet.Tree.node content raws ts).size = 1 + Tree.sizes ts := Nat.add_comm _ _
    rw [hsize]
    refine ⟨IsBlock.cons hf.1 rfl hp hplaces hcontainer hblock, fun q hq => ?_⟩
    have hi : f.parentOf i = some q := by
      rw [parentOf_of_get? hf.1]
      exact hq
    rw [hanging_append, hanging_one hi, hblock.hanging_eq_nil (hp q hq) (Nat.lt_succ_self i)]
    rfl

/-- Trees in a block, with the nodes in which their parents and their children agree. -/
theorem HoldsAll.isBlock : ∀ {ts : List Tree} {q i : Nat}, f.HoldsAll q i ts →
    Tree.AllOf Tree.Branches ts → q < i →
    f.IsBlock i (Tree.sizes ts) (some q) ∧ places i ts = f.hanging i (Tree.sizes ts) q
  | [], q, i, _, _, _ => by
    have hempty : ∀ {P : Nat → Prop} (j : Nat), i ≤ j → j < i + Tree.sizes [] → P j :=
      fun j hj hlt => absurd hlt (Nat.not_lt_of_le hj)
    exact ⟨⟨hempty, hempty, hempty, fun j s hj hlt => absurd hlt (Nat.not_lt_of_le hj)⟩, rfl⟩
  | t :: ts, q, i, hf, hall, hq => by
    obtain ⟨hblock, hfirst⟩ := Holds.isBlock hf.1 hall.1 fun d hd => by
      obtain rfl : q = d := Option.some.inj hd
      exact hq
    have := t.size_pos
    obtain ⟨hblock', hrest⟩ := HoldsAll.isBlock hf.2 hall.2 (by omega)
    have hsize : Tree.sizes (t :: ts) = t.size + Tree.sizes ts := rfl
    rw [hsize]
    refine ⟨hblock.append hq hblock', ?_⟩
    rw [places, hanging_append, hfirst q rfl, hrest]
    rfl

end

mutual

/-- All of a tree lies below its topmost node. -/
theorem Holds.isBelow : ∀ {t : Tree} {p : Option NodeId} {i : Nat}, f.Holds p i t →
    ∀ j : Nat, i < j → j < i + t.size → f.IsBelow j i
  | .node content raws ts, p, i, hf, j, hj, hlt => by
    have hsize : (Sheet.Tree.node content raws ts).size = Tree.sizes ts + 1 := rfl
    exact HoldsAll.isBelow hf.2 j hj (by omega)

/-- Every node of a block of trees is below the node they hang from. -/
theorem HoldsAll.isBelow : ∀ {ts : List Tree} {q i : Nat}, f.HoldsAll q i ts →
    ∀ j : Nat, i ≤ j → j < i + Tree.sizes ts → f.IsBelow j q
  | [], q, i, _, j, hj, hlt => absurd hlt (Nat.not_lt_of_le hj)
  | .node content raws us :: ts, q, i, hf, j, hj, hlt => by
    have hsize : Tree.sizes (.node content raws us :: ts) =
        (Sheet.Tree.node content raws us).size + Tree.sizes ts := rfl
    have hi : f.HangsFrom i q := by
      unfold HangsFrom parentOf
      rw [hf.1.1]
      rfl
    by_cases hfirst : j < i + (Sheet.Tree.node content raws us).size
    · rcases Nat.eq_or_lt_of_le hj with rfl | hj
      · exact Relation.TransGen.single hi
      · exact (Holds.isBelow hf.1 j hj hfirst).tail hi
    · exact HoldsAll.isBelow hf.2 j (by omega) (by omega)

end

/-- A forest that holds one tree and nothing else is consistent. -/
theorem consistent_of_holds {t : Tree} (hf : f.Holds none 0 t) (hsize : f.size = t.size)
    (hall : t.All Tree.Branches) : f.Consistent := by
  obtain ⟨hblock, -⟩ := hf.isBlock hall fun q hq => by cases hq
  rw [← hsize] at hblock
  -- In a block a parent comes before its children, so no node is below itself.
  have hup : ∀ {i c : Nat}, f.parentOf i = some c → c < i := by
    intro i c hparent
    rcases hblock.parentOf_eq i (Nat.zero_le i) (by simpa using lt_size_of_parentOf hparent) with
      h | ⟨d, h, -, hd⟩
    · rw [h] at hparent
      cases hparent
    · obtain rfl : d = c := Option.some.inj (h.symm.trans hparent)
      exact hd
  have hchildren : ∀ c : Nat, c < f.size → f.childrenOf c = f.hanging 0 f.size c := fun c hc =>
    hblock.childrenOf_eq c (Nat.zero_le c) (by simpa using hc)
  have hnone : ∀ c : Nat, ¬c < f.size → f.childrenOf c = [] := by
    intro c hc
    refine List.eq_nil_iff_forall_not_mem.2 fun j hj => hc (lt_size_of_mem_childrenOf hj)
  -- The five parts of consistency, each of them read off the block.
  refine ⟨fun i c => ?_, fun c => ?_, fun i c hi => ?_, fun i hi => ?_, fun i s hs k hk => ?_⟩
  · constructor
    · intro hi
      rw [hchildren c (lt_size_of_mem_childrenOf hi), hanging, List.mem_filter, beq_iff_eq] at hi
      exact hi.2
    · intro hparent
      have hi : i < f.size := lt_size_of_parentOf hparent
      rw [hchildren c ((hup hparent).trans hi), hanging, List.mem_filter, beq_iff_eq,
        List.mem_range'_1, Nat.zero_add]
      exact ⟨⟨Nat.zero_le i, hi⟩, hparent⟩
  · by_cases hc : c < f.size
    · rw [hchildren c hc]
      exact List.Nodup.filter _ List.nodup_range'
    · rw [hnone c hc]
      exact List.nodup_nil
  · exact hblock.isContainer c (Nat.zero_le c) (by simpa using lt_size_of_mem_childrenOf hi)
      (List.ne_nil_of_mem hi)
  · have hlt : ∀ {j d : Nat}, f.IsBelow j d → d < j := by
      intro j d hjd
      induction hjd with
      | single h => exact hup h
      | tail _ h ih => exact (hup h).trans ih
    exact Nat.lt_irrefl i (hlt hi)
  · rw [hblock.cursors_eq i s (Nat.zero_le i) (by simpa using lt_size_of_get? hs) hs] at hk
    cases hk

/-- A tree planted where nothing else is makes a consistent forest. -/
theorem consistent_plant {t : Tree} (ht : t.All Tree.Branches) :
    (({} : Forest).plant none t).2.Consistent := by
  obtain ⟨-, hgrown, hholds⟩ := plant_holds t {} none
  exact consistent_of_holds hholds (hgrown.size_eq.trans (Nat.zero_add t.size)) ht

/-! ## New values in a forest -/

section Values

variable {r : Nat → String → String → Option String}

/-- New values do not change where trees start. -/
theorem places_mapValuesOf : ∀ (ts : List Tree) (i j : Nat),
    places i (Tree.mapValuesOf r j ts) = places i ts
  | [], _, _ => rfl
  | t :: ts, i, j => by
    rw [Tree.mapValuesOf, places, places, Tree.size_mapValues, places_mapValuesOf]

mutual

/-- A forest whose declarations have new values holds the tree with these values. -/
theorem Holds.mapValues : ∀ {t : Tree} {p : Option NodeId} {i : Nat}, f.Holds p i t →
    (∀ j : Nat, i ≤ j → j < i + t.size → g.get? j =
      (f.get? j).map fun s => { s with content := Tree.newContent (r j) s.content }) →
    g.Holds p i (t.mapValues r i)
  | .node content raws ts, p, i, hf, h => by
    have hsize : (Sheet.Tree.node content raws ts).size = Tree.sizes ts + 1 := rfl
    refine ⟨?_, HoldsAll.mapValues hf.2 fun j hj hlt => h j (by omega) (by omega)⟩
    rw [h i (Nat.le_refl i) (by omega), hf.1, places_mapValuesOf]
    rfl

/-- If the contents of a block get new values, the forest has the trees with these values. -/
theorem HoldsAll.mapValues : ∀ {ts : List Tree} {q i : Nat}, f.HoldsAll q i ts →
    (∀ j : Nat, i ≤ j → j < i + Tree.sizes ts → g.get? j =
      (f.get? j).map fun s => { s with content := Tree.newContent (r j) s.content }) →
    g.HoldsAll q i (Tree.mapValuesOf r i ts)
  | [], _, _, _, _ => trivial
  | t :: ts, q, i, hf, h => by
    have hsize : Tree.sizes (t :: ts) = t.size + Tree.sizes ts := rfl
    refine ⟨Holds.mapValues hf.1 fun j hj hlt => h j hj (by omega), ?_⟩
    rw [Tree.size_mapValues]
    exact HoldsAll.mapValues hf.2 fun j hj hlt => h j (by omega) (by omega)

end

end Values

/-! ## Declarations in a forest -/

/-- Whether a node is a declaration. -/
def isDeclaration (f : Forest) (i : NodeId) : Bool :=
  match f.contentOf i with
  | some (.declaration ..) => true
  | _ => false

theorem isDeclaration_iff :
    f.isDeclaration i = true ↔
      ∃ prop value important, f.contentOf i = some (.declaration prop value important) := by
  unfold isDeclaration
  split
  · next h => simp [h]
  · next h => simpa using fun prop value important => h prop value important

mutual

/-- The declarations among the parts are the declarations of the block, in its order. -/
theorem Holds.filterMap_parts : ∀ {t : Tree} {p : Option NodeId} {i : Nat} (semicolon : Bool),
    f.Holds p i t → t.All Tree.ShowsAll →
    (t.parts semicolon i).filterMap Tree.Part.node? =
      (List.range' i t.size).filter f.isDeclaration
  | .node content raws ts, p, i, semicolon, hf, hall => by
    have hcontent : f.contentOf i = some content := contentOf_of_get? hf.1
    have hinner := HoldsAll.filterMap_parts (raws.semicolon == some true) hf.2 hall.2
    have hrange : List.range' i (Sheet.Tree.node content raws ts).size =
        i :: List.range' (i + 1) (Tree.sizes ts) := List.range'_succ ..
    -- Nodes that show no children have none, so the block is the node alone.
    have hleaf : Tree.showsChildren content = false → ts = [] := fun h => by
      by_contra hne
      rw [hall.1 hne] at h
      cases h
    have hself : f.isDeclaration i = match some content with
        | some (.declaration ..) => true
        | _ => false := by
      rw [← hcontent]
      rfl
    rw [hrange, List.filter_cons, hself]
    cases content with
    | root file =>
      rw [Tree.parts, List.filterMap_append, hinner]
      exact List.append_nil _
    | rule selector =>
      rw [Tree.parts, Tree.Part.filterMap_block, hinner]
      rfl
    | atRule name params body =>
      cases body with
      | true =>
        rw [Tree.parts, Tree.Part.filterMap_block, hinner]
        rfl
      | false =>
        rw [Tree.parts, hleaf rfl]
        rfl
    | declaration | comment =>
      rw [Tree.parts, hleaf rfl]
      rfl

theorem HoldsAll.filterMap_parts : ∀ {ts : List Tree} {q i : Nat} (semicolon : Bool),
    f.HoldsAll q i ts → Tree.AllOf Tree.ShowsAll ts →
    (Tree.partsOf semicolon i ts).filterMap Tree.Part.node? =
      (List.range' i (Tree.sizes ts)).filter f.isDeclaration
  | [], _, _, _, _, _ => rfl
  | t :: ts, q, i, semicolon, hf, hall => by
    have hsize : Tree.sizes (t :: ts) = t.size + Tree.sizes ts := rfl
    rw [Tree.partsOf, List.filterMap_append, Holds.filterMap_parts _ hf.1 hall.1,
      HoldsAll.filterMap_parts _ hf.2 hall.2, hsize, ← List.range'_append_1, List.filter_append]

end

section Parts

variable {prop value front written back : String}

mutual

/-- A declaration among the parts is the node of its number. -/
theorem Holds.contentOf_of_mem_parts : ∀ {t : Tree} {p : Option NodeId} {i : Nat}
    {semicolon : Bool}, f.Holds p i t →
    .declaration j prop value front written back ∈ t.parts semicolon i →
    ∃ important, f.contentOf j = some (.declaration prop value important)
  | .node content raws ts, p, i, semicolon, hf, hmem => by
    have hinner := @HoldsAll.contentOf_of_mem_parts ts i (i + 1) (raws.semicolon == some true) hf.2
    cases content with
    | root file =>
      rw [Tree.parts] at hmem
      exact hinner (by simpa using hmem)
    | rule selector =>
      rw [Tree.parts] at hmem
      exact hinner (by simpa using hmem)
    | atRule name params body =>
      cases body with
      | true =>
        rw [Tree.parts] at hmem
        exact hinner (by simpa using hmem)
      | false =>
        rw [Tree.parts] at hmem
        simp at hmem
    | declaration prop' value' important =>
      rw [Tree.parts, List.mem_singleton, Tree.Part.declaration.injEq] at hmem
      obtain ⟨rfl, rfl, rfl, -⟩ := hmem
      refine ⟨important, ?_⟩
      unfold contentOf
      rw [hf.1]
      rfl
    | comment s =>
      rw [Tree.parts] at hmem
      simp at hmem

/-- A part of a tree that is a declaration is one in the forest. -/
theorem HoldsAll.contentOf_of_mem_parts : ∀ {ts : List Tree} {q i : Nat} {semicolon : Bool},
    f.HoldsAll q i ts →
    .declaration j prop value front written back ∈ Tree.partsOf semicolon i ts →
    ∃ important, f.contentOf j = some (.declaration prop value important)
  | [], _, _, _, _, hmem => by cases hmem
  | t :: ts, q, i, semicolon, hf, hmem => by
    rw [Tree.partsOf, List.mem_append] at hmem
    rcases hmem with hmem | hmem
    · exact Holds.contentOf_of_mem_parts hf.1 hmem
    · exact HoldsAll.contentOf_of_mem_parts hf.2 hmem

end

end Parts

end Forest

end PixelUnit
