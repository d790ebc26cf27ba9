import PixelUnit.Proofs.Forest.Additions
import PixelUnit.Proofs.Forest.Handover
import PixelUnit.Proofs.Sheet.Tags

/-!
# What is seen of a change

A change of one node of a planted tree is seen below that node only (`Holds.exists_replaced`). So
what is seen after an attribute of a node was set (`Holds.view_setAttribute`), or after a new node
was put among the children of a node (`Holds.view_insertNew`), is the tree that was planted with
that node replaced.
-/

namespace PixelUnit

open Sheet

namespace Forest

variable {f g : Forest} {t : Tree} {p : Option NodeId} {i n : Nat}

/-! ## One node -/

mutual

/-- A forest that differs in one node is seen as the tree with that node replaced. The node is seen
as far below as it reaches, and further if the tree is. -/
theorem Holds.exists_replaced : ∀ {t : Tree} {p : Option NodeId} {i : Nat} (depth : Nat),
    f.Holds p i t → t.All Tree.ShowsAll → t.size ≤ depth → i ≤ n → n < i + t.size →
    (∀ j : Nat, i ≤ j → j < i + t.size → j ≠ n → g.get? j = f.get? j) →
    ∃ q s depth', f.Holds q n s ∧ n + s.size ≤ i + t.size ∧ s.size + depth ≤ depth' + t.size ∧
      Tree.Replaced s (g.viewTo depth' n) t (g.viewTo depth i)
  | .node content raws ts, p, i, 0, _, _, hdepth, _, _, _ =>
    absurd hdepth (Nat.not_succ_le_zero _)
  | .node content raws ts, p, i, depth + 1, hf, hall, hdepth, hi, hn, hg => by
    have hsize : (Sheet.Tree.node content raws ts).size = Tree.sizes ts + 1 := rfl
    rcases Nat.eq_or_lt_of_le hi with rfl | hlt
    · exact ⟨p, _, depth + 1, hf, Nat.le_refl _, by omega, .top⟩
    · obtain ⟨us, u, vs, u', hus, hmap, q, s, depth', hs, hwithin, hle, hreplaced⟩ :=
        HoldsAll.exists_replaced depth hf.2 hall.2 (by omega) hlt (by omega)
          fun j hj hlt' => hg j (by omega) (by omega)
      refine ⟨q, s, depth', hs, by omega, by omega, ?_⟩
      rw [viewTo, hg i (Nat.le_refl i) (by omega) (by omega), hf.1]
      dsimp only
      rw [hmap, hus]
      exact .inside hreplaced (hall.1 (by simp [hus]))

/-- If nodes of one tree in a row change, all other trees in the row read as before. -/
theorem HoldsAll.exists_replaced : ∀ {ts : List Tree} {c i : Nat} (depth : Nat),
    f.HoldsAll c i ts → Tree.AllOf Tree.ShowsAll ts → Tree.sizes ts ≤ depth → i ≤ n →
    n < i + Tree.sizes ts →
    (∀ j : Nat, i ≤ j → j < i + Tree.sizes ts → j ≠ n → g.get? j = f.get? j) →
    ∃ us u vs u', ts = us ++ u :: vs ∧ (places i ts).map (g.viewTo depth) = us ++ u' :: vs ∧
      ∃ q s depth', f.Holds q n s ∧ n + s.size ≤ i + Tree.sizes ts ∧
        s.size + depth ≤ depth' + Tree.sizes ts ∧ Tree.Replaced s (g.viewTo depth' n) u u'
  | [], _, i, _, _, _, _, hi, hn, _ => absurd hn (Nat.not_lt_of_le hi)
  | t :: ts, c, i, depth, hf, hall, hdepth, hi, hn, hg => by
    have hsize : Tree.sizes (t :: ts) = t.size + Tree.sizes ts := rfl
    rw [places, List.map_cons]
    by_cases hlt : n < i + t.size
    · obtain ⟨q, s, depth', hs, hwithin, hle, hreplaced⟩ :=
        Holds.exists_replaced depth hf.1 hall.1 (by omega) hi hlt
          fun j hj hlt' => hg j hj (by omega)
      have hothers : (places (i + t.size) ts).map (g.viewTo depth) = ts :=
        HoldsAll.map_viewTo (hf.2.congr fun j hj hlt' => hg j (by omega) (by omega) (by omega))
          (by omega)
      rw [hothers]
      exact ⟨[], t, ts, _, rfl, rfl, q, s, depth', hs, by omega, by omega, hreplaced⟩
    · obtain ⟨us, u, vs, u', hus, hmap, q, s, depth', hs, hwithin, hle, hreplaced⟩ :=
        HoldsAll.exists_replaced depth hf.2 hall.2 (by omega) (by omega) (by omega)
          fun j hj hlt' => hg j (by omega) (by omega)
      have hfirst : g.viewTo depth i = t :=
        Holds.viewTo_eq (hf.1.congr fun j hj hlt' => hg j hj (by omega) (by omega)) (by omega)
      have hle' : s.size + depth ≤ depth' + Tree.sizes (t :: ts) := by omega
      have hwithin' : n + s.size ≤ i + Tree.sizes (t :: ts) := by omega
      rw [hmap, hfirst]
      exact ⟨t :: us, u, vs, u', by rw [hus]; rfl, rfl, q, s, depth', hs, hwithin', hle', hreplaced⟩

end

/-- A node of a planted tree, and what is seen of the tree when the node has changed. -/
theorem Holds.exists_seen {content : Content} {raws : Raws} {ts : List Tree}
    (hf : f.Holds none 0 t) (hsize : f.size = t.size) (hall : t.All Tree.ShowsAll)
    (hn : n < f.size) (hview : f.view n = .node content raws ts) :
    ∃ q, f.get? n = some { content, raws, parent := q, children := places (n + 1) ts } ∧
      ∀ (g : Forest) (s : Slot), f.size ≤ g.size →
        (∀ j : Nat, j < f.size → j ≠ n → g.get? j = f.get? j) → g.get? n = some s →
        ∃ depth, 0 < depth ∧ (places (n + 1) ts).map (g.viewTo depth) = ts ∧
          Tree.Replaced (.node content raws ts)
            (.node s.content s.raws (s.children.map (g.viewTo depth))) t (g.view 0) := by
  have hnode : ∀ (g : Forest), f.size ≤ g.size →
      (∀ j : Nat, j < f.size → j ≠ n → g.get? j = f.get? j) →
      ∃ q depth, f.Holds q n (.node content raws ts) ∧ n + Tree.sizes ts + 1 ≤ f.size ∧
        Tree.sizes ts < depth ∧
        Tree.Replaced (.node content raws ts) (g.viewTo (depth + 1) n) t (g.view 0) := by
    intro g hle hg
    obtain ⟨q, s, depth, hs, hwithin, hdepth, hreplaced⟩ :=
      hf.exists_replaced (g.size + 1) hall (by omega) (Nat.zero_le n)
        (by omega) fun j _ hlt => hg j (by omega)
    obtain rfl : s = .node content raws ts := by
      rw [← hview]
      exact (hs.viewTo_eq (by omega)).symm
    have hsizes : (Sheet.Tree.node content raws ts).size = Tree.sizes ts + 1 := rfl
    obtain ⟨d, rfl⟩ : ∃ d, depth = d + 1 := ⟨depth - 1, by omega⟩
    exact ⟨q, d, hs, by omega, by omega, hreplaced⟩
  obtain ⟨q, -, hs, -⟩ := hnode f (Nat.le_refl _) fun _ _ _ => rfl
  refine ⟨q, hs.1, fun g s hle hg hgs => ?_⟩
  obtain ⟨-, depth, -, hwithin, hdepth, hreplaced⟩ := hnode g hle hg
  have hchildren : (places (n + 1) ts).map (g.viewTo depth) = ts :=
    HoldsAll.map_viewTo (hs.2.congr fun j hj hlt => hg j (by omega) (by omega)) hdepth.le
  refine ⟨depth, by omega, hchildren, ?_⟩
  rw [viewTo, hgs] at hreplaced
  exact hreplaced

/-! ## Attributes -/

section

variable {content : Content} {raws : Raws} {ts : List Tree}

/-- After an attribute of a node was set, the tree is seen with that node changed. -/
theorem Holds.view_setAttribute {a : Attribute} {content' : Content} (hf : f.Holds none 0 t)
    (hsize : f.size = t.size) (hall : t.All Tree.ShowsAll) (hn : n < f.size)
    (hview : f.view n = .node content raws ts) (ha : a.setIn? content = some content') :
    ∃ g, setAttribute n a f = .ok () g ∧
      Tree.Replaced (.node content raws ts) (.node content' raws ts) t (g.view 0) := by
  obtain ⟨q, hs, hseen⟩ := hf.exists_seen hsize hall hn hview
  have hset := Slot.set?_of_setIn? (s := ⟨content, raws, q, places (n + 1) ts, [], 0, []⟩) ha
  have hs' : (f.update n (·.set a)).get? n =
      some ⟨content', raws, q, places (n + 1) ts, [], 0, []⟩ := by
    rw [get?_update_self, hs, Option.map_some, Slot.set, hset, Option.getD_some]
  obtain ⟨depth, -, hchildren, hreplaced⟩ := hseen (f.update n (·.set a)) _ (size_update ..).ge
    (fun j _ hj => get?_update_of_ne _ (Ne.symm hj)) hs'
  dsimp only at hreplaced
  rw [hchildren] at hreplaced
  exact ⟨_, rfl, hreplaced⟩

/-! ## New nodes -/

/-- Puts a new node in before position `index` of the children of a container. -/
def insertNew (c : NodeId) (index : Int) (content : Content) (raws : Raws) : Edit Unit := do
  let i ← create content raws []
  insertBefore c (.index index) [i]

/-- The other nodes stay as they are when a new node is handed over. -/
theorem Consistent.get?_handed_add (hf : f.Consistent) (c : NodeId) (s : Slot) {j : Nat}
    (hj : j < f.size) : ((f.add s).2.handed c [f.size]).get? j = f.get? j := by
  rw [get?_handed, get?_add, if_neg (Nat.ne_of_lt hj)]
  cases hs : f.get? j with
  | none => rfl
  | some u =>
    have hnone : f.size ∉ u.children := by
      rw [← childrenOf_of_get? hs, hf.mem_childrenOf_iff]
      exact fun hparent => Nat.lt_irrefl _ (lt_size_of_parentOf hparent)
    have hrelease : u.release ([] ++ [f.size]) = u.release [] :=
      Slot.release_concat_of_not_mem hnone
    rw [List.nil_append] at hrelease
    rw [Option.map_some, hrelease, Slot.release_nil, if_neg (by simp [Nat.ne_of_lt hj])]

theorem map_spliceAt {α β : Type} (r : α → β) (xs : List α) (index : Int) (new : List α) :
    (spliceAt xs index new).map r = spliceAt (xs.map r) index (new.map r) := by
  simp [spliceAt]

/-- After a new node was put in, the tree is seen with it among the children of its parent. -/
theorem Holds.view_insertNew {content' : Content} {raws' : Raws} (hf : f.Holds none 0 t)
    (hsize : f.size = t.size) (hall : t.All Tree.ShowsAll) (hconsistent : f.Consistent)
    (hn : n < f.size) (hview : f.view n = .node content raws ts) (index : Int) :
    ∃ g, insertNew n index content' raws' f = .ok () g ∧
      Tree.Replaced (.node content raws ts)
        (.node content raws (spliceAt ts index [.node content' raws' []])) t (g.view 0) := by
  obtain ⟨q, hs, hseen⟩ := hf.exists_seen hsize hall hn hview
  have hadd : (f.add { content := content', raws := raws' }).2.Consistent :=
    hconsistent.add rfl rfl rfl
  have hrun : insertNew n index content' raws' f = .ok () (((f.add
      { content := content', raws := raws' }).2.handed n [f.size]).update n
        (·.insertBefore index [f.size])) :=
    hadd.insertBefore_eq (List.nodup_singleton _) rfl
  refine ⟨_, hrun, ?_⟩
  generalize hg : ((f.add { content := content', raws := raws' }).2.handed n [f.size]).update n
    (·.insertBefore index [f.size]) = g
  have hgsize : g.size = f.size + 1 := by rw [← hg, size_update, size_handed, size_add]
  have hne : n ≠ f.size := Nat.ne_of_lt hn
  -- In the new forest, the container has the new node among its children, and the node says what it
  -- is to say.
  have hparent : g.get? n = some
      (Slot.insertBefore ⟨content, raws, q, places (n + 1) ts, [], 0, []⟩ index [f.size]) := by
    rw [← hg, get?_update_self, hconsistent.get?_handed_add n _ hn, hs, Option.map_some]
  have hnew : ∃ s : Slot, g.get? f.size = some s ∧ s.content = content' ∧ s.raws = raws' ∧
      s.children = [] := by
    rw [← hg, get?_update_of_ne _ hne, get?_handed, get?_add, if_pos rfl]
    exact ⟨_, rfl, rfl, rfl, rfl⟩
  -- All other nodes are what they were, so the tree is seen with the container replaced.
  obtain ⟨depth, hdepth, hchildren, hreplaced⟩ := hseen g _ (by omega)
    (fun j hj hjn => by
      rw [← hg, get?_update_of_ne _ (Ne.symm hjn), hconsistent.get?_handed_add n _ hj]) hparent
  have hseenNew : g.viewTo depth f.size = .node content' raws' [] := by
    obtain ⟨d, rfl⟩ : ∃ d, depth = d + 1 := ⟨depth - 1, by omega⟩
    obtain ⟨s, hs', rfl, rfl, hnone⟩ := hnew
    rw [viewTo, hs']
    dsimp only
    rw [hnone, List.map_nil]
  have hspliced : (spliceAt (places (n + 1) ts) index [f.size]).map (g.viewTo depth) =
      spliceAt ts index [.node content' raws' []] := by
    rw [map_spliceAt, hchildren, List.map_singleton, hseenNew]
  rw [← hspliced]
  exact hreplaced

end

end Forest

namespace Sheet

/-- What a node says and how it is written. -/
def Tree.label : Tree → Content × Raws
  | .node content raws _ => (content, raws)

/-- A tree is a node with what its label says. -/
theorem Tree.exists_of_label {t : Tree} {content : Content} {raws : Raws}
    (h : t.label = (content, raws)) : ∃ ts, t = .node content raws ts := by
  obtain ⟨content', raws', ts⟩ := t
  cases h
  exact ⟨ts, rfl⟩

end Sheet

end PixelUnit
