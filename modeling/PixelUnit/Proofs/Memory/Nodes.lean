import PixelUnit.Memory.Reading
import PixelUnit.Proofs.Forest.Clones
import PixelUnit.Proofs.Memory.Copying

/-!
# Forests in memory

How a forest stands in memory: each of its nodes is an object (`Memory.IsNode`), which holds its
parent, and a container the list of its children and the dict of its iterations. Raws may be held by
more than one node. What is read from the objects is then the tree in the forest
(`Holds.treeAt_eq`). It does not matter what else there is in memory.
-/

namespace PixelUnit.Memory

open Sheet

variable {m m' : Memory} {f : Forest} {place place' : NodeId → Address} {o : Object} {s : Slot}
  {a b : Address} {i j : NodeId}

/-! ## Nodes -/

/-- The parent of a node, as the node holds it. -/
def heldNode (place : NodeId → Address) : Option NodeId → Held
  | none => .atom .none
  | some p => .object (place p)

/-- A dict holds raws, and no objects but a value as it was written. -/
structure IsRaws (m : Memory) (r : Raws) (d : Object) : Prop where
  raws : m.raws? d = some r
  nodup : (d.parts.map Prod.fst).Nodup
  value : ∀ key b, (key, .object b) ∈ d.parts → key = .text "value" ∧
    ∃ e, m.get? b = some e ∧ e.kind = .dict ∧ ∀ key c, (key, .object c) ∉ e.parts

/-- An object holds the children of a node and its iterations. -/
structure HoldsChildren (m : Memory) (place : NodeId → Address) (s : Slot) (o : Object) :
    Prop where
  children : m.heldBy? o "nodes" = some ⟨.list, s.children.map fun j => (.none, .object (place j))⟩
  iterations : m.heldBy? o "_iterations_" =
    some ⟨.dict, s.cursors.map fun c => (.int c.key, .atom (.int c.position))⟩
  lastKey : o.attribute? "_last_id_" = some (.atom (.int s.lastKey))

/-- An object is a node: it has the attributes of the node, and holds no other objects than it
should. It may have other attributes as well, but for such as its class has. -/
structure IsNode (m : Memory) (place : NodeId → Address) (s : Slot) (o : Object) : Prop where
  content : o.content? = some s.content
  parent : o.attribute? "parent" = some (heldNode place s.parent)
  raws : ∃ d, m.heldBy? o "raws" = some d ∧ IsRaws m s.raws d
  children : s.content.isContainer = true → HoldsChildren m place s o
  extras : ∀ n ∈ s.extras, (o.attribute? n).isSome
  nodup : (o.parts.map Prod.fst).Nodup
  own : ∀ n, .text n ∈ o.parts.map Prod.fst → n ∉ NodeClass.reservedNames
  held : ∀ key b, (key, .object b) ∈ o.parts → key ∈ [parentKey, .text "raws"] ∨
    s.content.isContainer = true ∧ key ∈ [.text "nodes", iterationsKey]

/-- The nodes of a forest are objects at different places, each container with a list of children of
its own. -/
structure Holds (m : Memory) (f : Forest) (place : NodeId → Address) : Prop where
  closed : m.Closed
  node : ∀ i s, f.get? i = some s → ∃ o, m.get? (place i) = some o ∧ IsNode m place s o
  injective : ∀ i j : Nat, i < f.size → j < f.size → place i = place j → i = j
  ownChildren : ∀ i j l : Nat, i < f.size → j < f.size →
    m.attribute? (place i) "nodes" = some (.object l) →
    m.attribute? (place j) "nodes" = some (.object l) → i = j

/-! ## Parts -/

/-- In an object with one part for each key, a part is what stands under its key. -/
theorem get?_eq_some_iff (hnodup : (o.parts.map Prod.fst).Nodup) {key : Atom} {v : Held} :
    o.get? key = some v ↔ (key, v) ∈ o.parts := by
  unfold Object.get?
  generalize o.parts = parts at hnodup ⊢
  induction parts with
  | nil => simp
  | cons e es ih =>
    obtain ⟨k, w⟩ := e
    rw [List.map_cons, List.nodup_cons] at hnodup
    rw [List.lookup_cons, List.mem_cons, Prod.mk.injEq]
    by_cases hk : key = k
    · subst hk
      have hnot : (key, v) ∉ es := fun h => hnodup.1 (List.mem_map.2 ⟨(key, v), h, rfl⟩)
      simp [hnot, eq_comm]
    · rw [beq_eq_false_iff_ne.2 hk]
      simp [hk, ih hnodup.2]

/-- What is held under a name is the object at the address that stands there. -/
theorem heldBy?_eq_some_iff {name : String} {x : Object} :
    m.heldBy? o name = some x ↔ ∃ a, o.attribute? name = some (.object a) ∧ m.get? a = some x := by
  unfold heldBy?
  constructor
  · intro h
    obtain ⟨v, hv, h⟩ := Option.bind_eq_some_iff.1 h
    obtain ⟨a, ha, h⟩ := Option.bind_eq_some_iff.1 h
    cases v with
    | atom x => cases ha
    | object a' =>
      cases ha
      exact ⟨a, hv, h⟩
  · rintro ⟨a, ha, hx⟩
    rw [ha]
    exact hx

/-- The kind of a node is that of its content. -/
theorem kind_of_content? {c : Content} (h : o.content? = some c) : o.kind = .node c.nodeClass := by
  unfold Object.content? at h
  split at h
  · next hk =>
    obtain ⟨file, -, h⟩ := Option.bind_eq_some_iff.1 h
    cases h
    exact hk
  · next hk =>
    obtain ⟨selector, -, h⟩ := Option.bind_eq_some_iff.1 h
    cases h
    exact hk
  · next hk =>
    obtain ⟨name, -, h⟩ := Option.bind_eq_some_iff.1 h
    obtain ⟨params, -, h⟩ := Option.bind_eq_some_iff.1 h
    obtain ⟨body, -, h⟩ := Option.bind_eq_some_iff.1 h
    cases h
    exact hk
  · next hk =>
    obtain ⟨prop, -, h⟩ := Option.bind_eq_some_iff.1 h
    obtain ⟨value, -, h⟩ := Option.bind_eq_some_iff.1 h
    obtain ⟨important, -, h⟩ := Option.bind_eq_some_iff.1 h
    cases h
    exact hk
  · next hk =>
    obtain ⟨text, -, h⟩ := Option.bind_eq_some_iff.1 h
    cases h
    exact hk
  · cases h
  · cases h

theorem IsNode.isContainer_eq (h : IsNode m place s o) :
    o.kind.isContainer = s.content.isContainer := by
  rw [kind_of_content? h.content]
  cases s.content <;> rfl

/-- Raws are held by a dict. -/
theorem IsRaws.kind_eq {r : Raws} {d : Object} (h : IsRaws m r d) : d.kind = .dict := by
  have hraws := h.raws
  unfold raws? at hraws
  split at hraws
  · assumption
  · cases hraws

/-- Parts of raws, lists and dicts are read from what is held under their keys. -/
theorem IsNode.nodes_of_mem (h : IsNode m place s o) (hs : s.content.isContainer = true) :
    ∃ l, o.attribute? "nodes" = some (.object l) ∧
      m.get? l = some ⟨.list, s.children.map fun j => (.none, .object (place j))⟩ :=
  heldBy?_eq_some_iff.1 (h.children hs).children

/-! ## Memories with more in them -/

/-- All dicts and lists of a memory are in another as well. -/
def KeepsDicts (m m' : Memory) : Prop :=
  ∀ a o, m.get? a = some o → (∀ c, o.kind ≠ .node c) → m'.get? a = some o

theorem KeepsDicts.heldBy? (h : KeepsDicts m m') {name : String} {x : Object}
    (hx : m.heldBy? o name = some x) (hk : ∀ c, x.kind ≠ .node c) :
    m'.heldBy? o name = some x := by
  obtain ⟨a, ha, hget⟩ := heldBy?_eq_some_iff.1 hx
  exact heldBy?_eq_some_iff.2 ⟨a, ha, h a x hget hk⟩

/-- Raws are read from dicts only, and so a memory with all dicts of another has its raws. -/
theorem KeepsDicts.isRaws (h : KeepsDicts m m') {r : Raws} {d : Object} (hd : IsRaws m r d) :
    IsRaws m' r d where
  raws := by
    have hvalue : m'.rawValue? d = m.rawValue? d := by
      unfold rawValue?
      cases hv : d.attribute? "value" with
      | none => rfl
      | some v =>
        cases v with
        | atom x =>
          have hnone (m : Memory) : m.heldBy? d "value" = none := by
            unfold Memory.heldBy?
            rw [hv]
            rfl
          rw [hnone, hnone]
        | object b =>
          obtain ⟨-, e, he, hkind, -⟩ := hd.value _ b ((get?_eq_some_iff hd.nodup).1 hv)
          rw [h.heldBy? (heldBy?_eq_some_iff.2 ⟨b, hv, he⟩) (by rw [hkind]; nofun),
            heldBy?_eq_some_iff.2 ⟨b, hv, he⟩]
    have hraws := hd.raws
    unfold raws? at hraws ⊢
    rwa [hvalue]
  nodup := hd.nodup
  value key b hb := by
    obtain ⟨hkey, e, he, hkind, hparts⟩ := hd.value key b hb
    exact ⟨hkey, e, h b e he (by rw [hkind]; nofun), hkind, hparts⟩

/-- A node stays one if no dicts and lists are lost and its parent and its children stay in
place. -/
theorem IsNode.mono (ho : IsNode m place s o) (h : KeepsDicts m m')
    (hparent : ∀ p, s.parent = some p → place' p = place p)
    (hchildren : ∀ j ∈ s.children, place' j = place j) : IsNode m' place' s o where
  content := ho.content
  parent := by
    rw [ho.parent]
    cases hp : s.parent with
    | none => rfl
    | some p => rw [heldNode, heldNode, hparent p hp]
  raws := by
    obtain ⟨d, hd, hraws⟩ := ho.raws
    exact ⟨d, h.heldBy? hd (by rw [hraws.kind_eq]; nofun), h.isRaws hraws⟩
  children hs := by
    obtain ⟨hnodes, hiterations, hlast⟩ := ho.children hs
    have hsame : (s.children.map fun j => (Atom.none, Held.object (place' j))) =
        s.children.map fun j => (Atom.none, Held.object (place j)) :=
      List.map_congr_left fun j hj => by rw [hchildren j hj]
    refine ⟨?_, h.heldBy? hiterations nofun, hlast⟩
    rw [hsame]
    exact h.heldBy? hnodes nofun
  extras := ho.extras
  nodup := ho.nodup
  own := ho.own
  held := ho.held

/-! ## Trees -/

/-- The addresses in a list of children are those of the children. -/
theorem addresses?_list (place : NodeId → Address) (js : List NodeId) :
    Object.addresses? ⟨.list, js.map fun j => (.none, .object (place j))⟩ =
      some (js.map place) := by
  show (js.map fun j => (Atom.none, Held.object (place j))).mapM (fun p => p.2.address?) = _
  rw [mapM_eq_some_map (g := fun p => (p.2.address?).getD 0), List.map_map]
  · rfl
  · intro p hp
    obtain ⟨j, -, rfl⟩ := List.mem_map.1 hp
    rfl

/-- The children of a node are read as the places of its children. -/
theorem IsNode.childrenOf?_eq (h : IsNode m place s o)
    (hleaf : s.content.isContainer = false → s.children = []) :
    m.childrenOf? o = some (s.children.map place) := by
  unfold childrenOf?
  rw [h.isContainer_eq]
  cases hs : s.content.isContainer with
  | false =>
    rw [hleaf hs]
    rfl
  | true =>
    rw [(h.children hs).children]
    exact addresses?_list place s.children

/-- What is read from the objects of a node is the tree below it. -/
theorem Holds.treeAt_eq (h : Holds m f place) (hf : f.Consistent) :
    ∀ (depth : Nat) (i : NodeId), f.EndsWithin depth i → i < f.size →
      m.treeAt depth (place i) = some (f.viewTo depth i)
  | 0, i, hdepth, _ => absurd hdepth.pos (Nat.lt_irrefl 0)
  | depth + 1, i, hdepth, hi => by
    obtain ⟨s, hs⟩ := Forest.get?_eq_some_of_lt hi
    obtain ⟨o, ho, hnode⟩ := h.node i s hs
    obtain ⟨d, hd, hraws⟩ := hnode.raws
    have hchildren : s.children = f.childrenOf i := (Forest.childrenOf_of_get? hs).symm
    have hleaf (hcontainer : s.content.isContainer = false) : s.children = [] := by
      refine List.eq_nil_iff_forall_not_mem.2 fun j hj => ?_
      have hi := hf.isContainer_of_mem j i (hchildren ▸ hj)
      rw [Forest.isContainer, Forest.contentOf_of_get? hs, Option.any_some, hcontainer] at hi
      cases hi
    have htrees : (s.children.map place).mapM (m.treeAt depth) =
        some (s.children.map (f.viewTo depth)) := by
      rw [List.mapM_map]
      refine mapM_eq_some_map fun j hj => ?_
      have hj : f.HangsFrom j i := (hf.mem_childrenOf_iff j i).1 (hchildren ▸ hj)
      exact h.treeAt_eq hf depth j (hdepth.child hj) (hf.lt_size_of_hangsFrom hj).1
    rw [treeAt, Forest.viewTo, ho, hs]
    simp only [Option.bind_eq_bind, Option.bind_some, hnode.content, hd, hraws.raws,
      hnode.childrenOf?_eq hleaf, htrees]
    rfl

end PixelUnit.Memory
