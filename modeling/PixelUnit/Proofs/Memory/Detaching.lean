import PixelUnit.Proofs.Memory.TreeCopies

/-!
# Nodes copied by themselves

The parent of a node is taken from it while it is copied (`Holds.holdsTree`) and given back
afterwards (`get?_restored_of_lt`). What was in memory is then as it was before, and with the copies
of the nodes it holds the forest that a copy leaves (`Holds.copied`). No object that was there holds
a new one, and no new object holds one that was there.
-/

namespace PixelUnit.Memory

open Sheet

variable {m : Memory} {st : Copying} {f g : Forest} {place place' : NodeId → Address} {o : Object}
  {s : Slot} {a b : Address} {i j k p : NodeId} {t : NodeId → NodeId} {v : Held}

/-! ## Nodes without parents -/

/-- Another attribute is read as before. -/
theorem attribute?_set_of_ne (o : Object) {name other : String} (h : other ≠ name) (v : Held) :
    (o.set name v).attribute? other = o.attribute? other := by
  rw [Object.attribute?_set, if_neg h]

theorem heldBy?_set_of_ne {name other : String} (h : other ≠ name) :
    m.heldBy? (o.set name v) other = m.heldBy? o other := by
  unfold heldBy?
  rw [attribute?_set_of_ne o h]

/-- A node gets another parent. -/
theorem IsNode.withParent (ho : IsNode m place s o) (q : Option NodeId) :
    IsNode m place { s with parent := q } (o.set "parent" (heldNode place q)) where
  content := by
    rw [← ho.content]
    refine content?_eq rfl fun name hname => ?_
    rw [attribute?_set_of_ne o hname.2]
    exact similar_self _
  parent := by rw [Object.attribute?_set, if_pos rfl]
  raws := by
    rw [heldBy?_set_of_ne (by decide)]
    exact ho.raws
  children hs := by
    obtain ⟨hnodes, hiterations, hlast⟩ := ho.children hs
    constructor
    · rwa [heldBy?_set_of_ne (by decide)]
    · rwa [heldBy?_set_of_ne (by decide)]
    · rwa [attribute?_set_of_ne o (by decide)]
  extras n hn := by
    rw [Object.attribute?_set]
    split
    · rfl
    · exact ho.extras n hn
  nodup := by
    rw [Object.set, Table.map_fst_put ho.parent]
    exact ho.nodup
  own := by
    rw [Object.set, Table.map_fst_put ho.parent]
    exact ho.own
  held key b hb := by
    rcases Table.mem_of_mem_put hb with heq | hb
    · exact .inl (List.mem_pair.2 (.inl (congrArg Prod.fst heq)))
    · exact ho.held key b hb

/-- The memory in which a node has no parent. -/
def withoutParent (m : Memory) (a : Address) : Memory :=
  m.setAttribute a "parent" (.atom .none)

theorem get?_setAttribute {name : String} :
    (m.setAttribute a name v).get? b = if a = b then (m.get? b).map (·.set name v) else m.get? b :=
  get?_update ..

theorem get?_withoutParent_of_ne (h : a ≠ b) : (m.withoutParent a).get? b = m.get? b := by
  rw [withoutParent, get?_setAttribute, if_neg h]

@[simp]
theorem size_withoutParent : (m.withoutParent a).size = m.size :=
  size_update ..

/-- Nodes have other attributes than their parents as before. -/
theorem attribute?_withoutParent {name : String} (h : name ≠ "parent") :
    (m.withoutParent a).attribute? b name = m.attribute? b name := by
  unfold attribute?
  rw [withoutParent, get?_setAttribute]
  split
  · cases m.get? b with
    | none => rfl
    | some o => exact attribute?_set_of_ne o h _
  · rfl

/-- Taking a parent away leaves no object without those it holds. -/
theorem Closed.withoutParent (hm : m.Closed) (a : Address) : (m.withoutParent a).Closed := by
  intro c o ho key b hb
  rw [size_withoutParent]
  rw [Memory.withoutParent, get?_setAttribute] at ho
  split at ho
  · obtain ⟨o', ho', rfl⟩ := Option.map_eq_some_iff.1 ho
    rcases Table.mem_of_mem_put hb with heq | hb
    · cases congrArg Prod.snd heq
    · exact hm c o' ho' key b hb
  · exact hm c o ho key b hb

/-- Only a node changes. -/
theorem keepsDicts_setAttribute {name : String} {c : NodeClass} (ho : m.get? a = some o)
    (hkind : o.kind = .node c) : KeepsDicts m (m.setAttribute a name v) := by
  intro b x hx hk
  rw [get?_setAttribute, if_neg]
  · exact hx
  · rintro rfl
    cases ho.symm.trans hx
    exact hk c hkind

section Top

variable (h : m.Holds f place) (hi : i < f.size)

include h hi

/-- Every node of a forest in memory has an object. -/
theorem Holds.exists_top : ∃ s o, f.get? i = some s ∧ m.get? (place i) = some o ∧
    IsNode m place s o := by
  obtain ⟨s, hs⟩ := Forest.get?_eq_some_of_lt hi
  obtain ⟨o, ho, hnode⟩ := h.node i s hs
  exact ⟨s, o, hs, ho, hnode⟩

theorem Holds.keepsDicts : KeepsDicts m (m.withoutParent (place i)) := by
  obtain ⟨s, o, -, ho, hnode⟩ := h.exists_top hi
  exact keepsDicts_setAttribute ho (kind_of_content? hnode.content)

/-- The tree below a node is in memory while the node has no parent. -/
theorem Holds.holdsTree (hf : f.Consistent) : (m.withoutParent (place i)).HoldsTree f i place where
  closed := h.closed.withoutParent (place i)
  node k s hk hs := by
    obtain ⟨o, ho, hnode⟩ := h.node k s hs
    by_cases hki : k = i
    · subst hki
      refine ⟨o.set "parent" (heldNode place none), ?_, ?_⟩
      · rw [withoutParent, get?_setAttribute, if_pos rfl, ho]
        rfl
      · rw [slotIn, if_pos rfl]
        exact (hnode.withParent none).mono (h.keepsDicts hi) (fun _ _ => rfl) fun _ _ => rfl
    · refine ⟨o, ?_, ?_⟩
      · rw [get?_withoutParent_of_ne, ho]
        exact fun heq => hki (h.injective i k hi (hf.lt_size_of_inTree hi hk) heq).symm
      · rw [slotIn, if_neg hki]
        exact hnode.mono (h.keepsDicts hi) (fun _ _ => rfl) fun _ _ => rfl
  injective k l hk hl :=
    h.injective k l (hf.lt_size_of_inTree hi hk) (hf.lt_size_of_inTree hi hl)
  ownChildren k j l hk hj hkl hjl := by
    rw [attribute?_withoutParent (by decide)] at hkl hjl
    exact h.ownChildren k j l (hf.lt_size_of_inTree hi hk) (hf.lt_size_of_inTree hi hj) hkl hjl

end Top

/-! ## The parent given back -/

theorem set_set {name : String} (hv : o.attribute? name = some v) (w : Held) :
    (o.set name w).set name v = o := by
  obtain ⟨k, parts⟩ := o
  exact congrArg (Object.mk k) (Table.put_put hv w)

/-- What was in memory is there again as it was. -/
theorem get?_restored_of_lt (hst : Begun (m.withoutParent a) st)
    (hv : m.attribute? a "parent" = some v) (hb : b < m.size) :
    (st.memory.setAttribute a "parent" v).get? b = m.get? b := by
  rw [get?_setAttribute, hst.get?_old b (by rwa [size_withoutParent]), withoutParent,
    get?_setAttribute]
  split
  · next hab =>
    subst hab
    obtain ⟨o, ho, hparent⟩ := Option.bind_eq_some_iff.1 hv
    rw [ho, Option.map_some, Option.map_some, set_set hparent]
  · rfl

theorem get?_restored_of_le (ha : a < m.size) (hb : m.size ≤ b) :
    (st.memory.setAttribute a "parent" v).get? b = st.memory.get? b := by
  rw [get?_setAttribute, if_neg (Nat.ne_of_lt (Nat.lt_of_lt_of_le ha hb))]

/-! ## What is new -/

/-- Objects on one side of a memory hold objects on that side. -/
def Apart (S : Address → Prop) (m : Memory) : Prop :=
  ∀ a o, m.get? a = some o → ∀ key b, (key, .object b) ∈ o.parts → (S b ↔ S a)

/-- New objects hold new objects only. -/
theorem Advance.le_of_mem {start : Address → Prop} (hst : Advance m start ⟨m, []⟩ st)
    (ha : m.size ≤ a) (ho : st.memory.get? a = some o) {key : Atom}
    (hb : (key, .object b) ∈ o.parts) : m.size ≤ b ∧ b < st.memory.size := by
  rcases hst.known a ha (exists_get?_iff.1 ⟨o, ho⟩) with ⟨x, hx⟩ | hdict
  · obtain ⟨y, y', -, hy', hcopy⟩ := hst.allCopied x a hx
    cases ho.symm.trans hy'
    obtain ⟨w, -, htwin⟩ := hcopy.exists_mem hb
    cases htwin with
    | plain _ hvw =>
      cases hvw with
      | object hcb => exact (hst.begun.bounds _ _ hcb).2
    | iterations _ hle hdict => exact ⟨hle, exists_get?_iff.1 ⟨_, hdict⟩⟩
    | parent _ hcb => exact (hst.begun.bounds _ _ hcb).2
  · cases ho.symm.trans hdict
    exact absurd hb List.not_mem_nil

/-- Where the copy of a node holds an object, the node holds an object whose copy that is. -/
theorem AllCopied.exists_attribute? (h : AllCopied m st) (hab : (a, b) ∈ st.memo) {name : String}
    (hname : name ≠ "_iterations_" ∧ name ≠ "parent") {l : Address}
    (hl : st.memory.attribute? b name = some (.object l)) :
    ∃ l', m.attribute? a name = some (.object l') ∧ (l', l) ∈ st.memo := by
  obtain ⟨o, o', ho, ho', hcopy⟩ := h a b hab
  rw [attribute?, ho'] at hl
  rcases hcopy.get?_cases (.text name) with ⟨-, hnone⟩ | ⟨v, w, hv, hw, htwin⟩
  · cases hnone.symm.trans hl
  · cases hw.symm.trans hl
    obtain ⟨c, rfl, hcl⟩ := htwin.exists_object (not_isOwn hname)
    exact ⟨c, by rwa [attribute?, ho], hcl⟩

/-- An object has attributes of the same names as another, and what it holds that is no object is
the same. -/
structure Alike (o o' : Object) : Prop where
  kind_eq : o'.kind = o.kind
  names_eq : o'.parts.map Prod.fst = o.parts.map Prod.fst
  atom_eq : ∀ name x, name ≠ "_iterations_" ∧ name ≠ "parent" →
    o.attribute? name = some (.atom x) → o'.attribute? name = some (.atom x)

/-- A copy has attributes of the same names, and the same atoms. -/
theorem IsCopy.alike {lo : Address} {o' : Object} (h : IsCopy st lo b o o') : Alike o o' where
  kind_eq := h.kind_eq
  names_eq := h.map_fst_eq
  atom_eq name x hname hx := by
    obtain ⟨w, hw, htwin⟩ := h.get?_eq_some (not_isOwn hname) hx
    cases htwin
    exact hw

/-- In a memory, new objects are a copy of the tree below a node, and what was there before is
there. -/
structure HasCopy (m : Memory) (f : Forest) (place : NodeId → Address) (i : NodeId)
    (t : NodeId → NodeId) (g : Forest) (m' : Memory) (place' : NodeId → Address) : Prop where
  mirrors : f.Mirrors i t g
  holds : m'.Holds g place'
  place_eq : ∀ k : Nat, k < f.size → place' k = place k
  get?_eq : ∀ a < m.size, m'.get? a = m.get? a
  fresh : ∀ k, f.InTree i k → m.size ≤ place' (t k)
  alike : ∀ k o o', f.InTree i k → m.get? (place k) = some o → m'.get? (place' (t k)) = some o' →
    Alike o o'
  apart : m'.Apart (· < m.size)

/-- The twins of nodes have places, where their copies are. -/
theorem exists_place (hg : f.Mirrors i t g)
    (hcopies : ∀ k, f.InTree i k → ∃ b, (place k, b) ∈ st.memo) :
    ∃ place' : NodeId → Address, (∀ k : Nat, k < f.size → place' k = place k) ∧
      ∀ k, f.InTree i k → (place k, place' (t k)) ∈ st.memo := by
  have hplace (j : Nat) : ∃ a, (j < f.size → a = place j) ∧
      ∀ k, f.InTree i k → t k = j → (place k, a) ∈ st.memo := by
    rcases Nat.lt_or_ge j f.size with hj | hj
    · exact ⟨place j, fun _ => rfl, fun k hk heq =>
        absurd (heq ▸ hj) (Nat.not_lt_of_le (hg.fresh k hk).1)⟩
    · by_cases htwin : ∃ k, f.InTree i k ∧ t k = j
      · obtain ⟨k, hk, rfl⟩ := htwin
        obtain ⟨b, hb⟩ := hcopies k hk
        refine ⟨b, fun hlt => absurd hlt (Nat.not_lt_of_le hj), fun l hl heq => ?_⟩
        rwa [hg.injective l k hl hk heq]
      · exact ⟨0, fun hlt => absurd hlt (Nat.not_lt_of_le hj),
          fun k hk heq => absurd ⟨k, hk, heq⟩ htwin⟩
  choose place' hold hnew using hplace
  exact ⟨place', hold, fun k hk => hnew (t k) k hk rfl⟩

theorem Holds.lt_size (h : m.Holds f place) (hj : j < f.size) : place j < m.size := by
  obtain ⟨s, hs⟩ := Forest.get?_eq_some_of_lt hj
  obtain ⟨o, ho, -⟩ := h.node j s hs
  exact exists_get?_iff.1 ⟨o, ho⟩

/-- The tree below a node has been copied while the node had no parent; `v` is what it holds as its
parent, and `place'` tells where the nodes and their twins are. -/
structure CopiedAlone (m : Memory) (f : Forest) (place : NodeId → Address) (i : NodeId) (v : Held)
    (st : Copying) (t : NodeId → NodeId) (g : Forest) (place' : NodeId → Address) : Prop where
  holds : m.Holds f place
  consistent : f.Consistent
  lt_size : i < f.size
  parent : m.attribute? (place i) "parent" = some v
  advance : Advance (m.withoutParent (place i)) (Held.object (place i) = .object ·)
    ⟨m.withoutParent (place i), []⟩ st
  mirrors : f.Mirrors i t g
  old : ∀ k : Nat, k < f.size → place' k = place k
  new : ∀ k, f.InTree i k → (place k, place' (t k)) ∈ st.memo

namespace CopiedAlone

variable (h : CopiedAlone m f place i v st t g place')

include h

theorem get?_old (ha : a < m.size) :
    (st.memory.setAttribute (place i) "parent" v).get? a = m.get? a :=
  get?_restored_of_lt h.advance.begun h.parent ha

theorem get?_new (ha : m.size ≤ a) :
    (st.memory.setAttribute (place i) "parent" v).get? a = st.memory.get? a :=
  get?_restored_of_le (h.holds.lt_size h.lt_size) ha

theorem size_le : m.size ≤ st.memory.size :=
  Nat.le_trans (Nat.le_of_eq size_withoutParent.symm) h.advance.begun.size_le

/-- New nodes are behind all objects that were there. -/
theorem le_place (hk : f.InTree i k) : m.size ≤ place' (t k) :=
  Nat.le_trans (Nat.le_of_eq size_withoutParent.symm)
    (h.advance.begun.bounds _ _ (h.new k hk)).2.1

/-- A node was there before, or it is a twin. -/
theorem old_or_new (hj : j < g.size) :
    (j < f.size ∧ place' j = place j ∧ place' j < m.size) ∨
      ∃ k, f.InTree i k ∧ j = t k ∧ m.size ≤ place' j := by
  rcases Nat.lt_or_ge j f.size with hlt | hle
  · exact .inl ⟨hlt, h.old j hlt, h.old j hlt ▸ h.holds.lt_size hlt⟩
  · obtain ⟨k, hk, rfl⟩ := h.mirrors.exists_twin j hle hj
    exact .inr ⟨k, hk, rfl, h.le_place hk⟩

/-- Nodes that were there are the nodes that they were. -/
theorem node_old {j : Nat} (hj : j < f.size) (hs : g.get? j = some s) :
    ∃ o, (st.memory.setAttribute (place i) "parent" v).get? (place' j) = some o ∧
      IsNode (st.memory.setAttribute (place i) "parent" v) place' s o := by
  rw [h.mirrors.get?_old j hj] at hs
  obtain ⟨o, ho, hnode⟩ := h.holds.node j s hs
  have hkeeps : KeepsDicts m (st.memory.setAttribute (place i) "parent" v) := fun a o ho _ =>
    (h.get?_old (exists_get?_iff.1 ⟨o, ho⟩)).trans ho
  refine ⟨o, ?_, hnode.mono hkeeps (fun p hp => h.old p ?_) fun k hk => h.old k ?_⟩
  · rw [h.old j hj, h.get?_old (h.holds.lt_size hj), ho]
  · exact (h.consistent.lt_size_of_hangsFrom ((Forest.parentOf_of_get? hs).trans hp)).2
  · rw [← Forest.childrenOf_of_get? hs, h.consistent.mem_childrenOf_iff] at hk
    exact (h.consistent.lt_size_of_hangsFrom hk).1

/-- Their copies are the twins. -/
theorem node_new (hk : f.InTree i k) (hs : g.get? (t k) = some s) :
    ∃ o, (st.memory.setAttribute (place i) "parent" v).get? (place' (t k)) = some o ∧
      IsNode (st.memory.setAttribute (place i) "parent" v) place' s o := by
  obtain ⟨u, hu⟩ := Forest.get?_eq_some_of_lt (h.consistent.lt_size_of_inTree h.lt_size hk)
  cases hs.symm.trans (h.mirrors.get?_twin k u hk hu)
  obtain ⟨o, ho, hnode⟩ := (h.holds.holdsTree h.lt_size h.consistent).isNode_copy h.consistent
    h.lt_size h.advance h.new hk hu
  obtain ⟨u', x, -, hx, hnode'⟩ := h.holds.exists_top h.lt_size
  have htop : st.memory.get? (place i) = some (x.set "parent" (.atom .none)) := by
    rw [h.advance.begun.get?_old _ (by rw [size_withoutParent]; exact h.holds.lt_size h.lt_size),
      withoutParent, get?_setAttribute, if_pos rfl, hx]
    rfl
  have hkind := kind_of_content? hnode'.content
  have hkeeps := @keepsDicts_setAttribute _ _ _ v "parent" _ htop hkind
  exact ⟨o, (h.get?_new (h.le_place hk)).trans ho,
    hnode.mono hkeeps (fun _ _ => rfl) fun _ _ => rfl⟩

/-- The object of a twin is alike to that of its node. -/
theorem alike {o' : Object} (hk : f.InTree i k) (ho : m.get? (place k) = some o)
    (ho' : (st.memory.setAttribute (place i) "parent" v).get? (place' (t k)) = some o') :
    Alike o o' := by
  rw [h.get?_new (h.le_place hk)] at ho'
  obtain ⟨x, x', hx, hx', hcopy⟩ := h.advance.allCopied _ _ (h.new k hk)
  cases ho'.symm.trans hx'
  rw [withoutParent, get?_setAttribute, ho, Option.map_some] at hx
  split at hx
  · next htop =>
    cases hx
    have hparent : o.parts.lookup (.text "parent") = some v := by
      have hparent := h.parent
      rwa [attribute?, htop, ho] at hparent
    refine ⟨hcopy.alike.kind_eq, ?_, fun name x hname hx => hcopy.alike.atom_eq name x hname ?_⟩
    · rw [hcopy.alike.names_eq, Object.set, Table.map_fst_put hparent]
    · rwa [attribute?_set_of_ne o hname.2]
  · cases hx
    exact hcopy.alike

/-- What an object holds is on its side. -/
theorem apart : (st.memory.setAttribute (place i) "parent" v).Apart (· < m.size) := by
  intro a o ho key b hb
  rcases Nat.lt_or_ge a m.size with ha | ha
  · rw [h.get?_old ha] at ho
    exact iff_of_true (h.holds.closed a o ho key b hb) ha
  · rw [h.get?_new ha] at ho
    have hle := (h.advance.le_of_mem (by rwa [size_withoutParent]) ho hb).1
    rw [size_withoutParent] at hle
    exact iff_of_false (Nat.not_lt_of_le hle) (Nat.not_lt_of_le ha)

/-- All objects that are held are there, also when the node has its parent again. -/
theorem closed : (st.memory.setAttribute (place i) "parent" v).Closed := by
  intro a o ho key b hb
  rw [setAttribute, size_update]
  rcases Nat.lt_or_ge a m.size with ha | ha
  · rw [h.get?_old ha] at ho
    exact Nat.lt_of_lt_of_le (h.holds.closed a o ho key b hb) h.size_le
  · rw [h.get?_new ha] at ho
    exact (h.advance.le_of_mem (by rwa [size_withoutParent]) ho hb).2

/-- No two nodes are at one place. -/
theorem injective {j k : Nat} (hj : j < g.size) (hk : k < g.size) (hjk : place' j = place' k) :
    j = k := by
  rcases h.old_or_new hj with ⟨hj, hoj, hlj⟩ | ⟨j, htj, rfl, hlj⟩ <;>
    rcases h.old_or_new hk with ⟨hk, hok, hlk⟩ | ⟨k, htk, rfl, hlk⟩
  · exact h.holds.injective j k hj hk (hoj.symm.trans (hjk.trans hok))
  · exact absurd (hjk ▸ hlj) (Nat.not_lt_of_le hlk)
  · exact absurd (hjk ▸ hlk) (Nat.not_lt_of_le hlj)
  · have hplace := h.advance.begun.original_unique (h.new j htj) (hjk ▸ h.new k htk)
    exact congrArg t (h.holds.injective j k (h.consistent.lt_size_of_inTree h.lt_size htj)
      (h.consistent.lt_size_of_inTree h.lt_size htk) hplace)

/-- The list of the children of a node was there, or it is the copy of such a list. -/
theorem list_old {j l : Nat} (hj : j < f.size)
    (hl : (st.memory.setAttribute (place i) "parent" v).attribute? (place' j) "nodes" =
      some (.object l)) : m.attribute? (place j) "nodes" = some (.object l) ∧ l < m.size := by
  have hold : m.attribute? (place j) "nodes" = some (.object l) := by
    rwa [attribute?, h.old j hj, h.get?_old (h.holds.lt_size hj)] at hl
  obtain ⟨s, hs⟩ := Forest.get?_eq_some_of_lt hj
  obtain ⟨o, ho, hnode⟩ := h.holds.node j s hs
  rw [attribute?, ho] at hold
  refine ⟨by rwa [attribute?, ho], h.holds.closed _ o ho (.text "nodes") l ?_⟩
  exact (get?_eq_some_iff hnode.nodup).1 hold

/-- The list of children of a copy is the copy of a list of children. -/
theorem list_new {l : Nat} (hk : f.InTree i k)
    (hl : (st.memory.setAttribute (place i) "parent" v).attribute? (place' (t k)) "nodes" =
      some (.object l)) :
    ∃ l', m.attribute? (place k) "nodes" = some (.object l') ∧ (l', l) ∈ st.memo := by
  have hnew : st.memory.attribute? (place' (t k)) "nodes" = some (.object l) := by
    rwa [attribute?, h.get?_new (h.le_place hk)] at hl
  obtain ⟨l', hl', hmem⟩ := h.advance.allCopied.exists_attribute? (h.new k hk) (by decide) hnew
  rw [attribute?_withoutParent (by decide)] at hl'
  exact ⟨l', hl', hmem⟩

/-- Each container has a list of children of its own. -/
theorem ownChildren {j k l : Nat} (hj : j < g.size) (hk : k < g.size)
    (hlj : (st.memory.setAttribute (place i) "parent" v).attribute? (place' j) "nodes" =
      some (.object l))
    (hlk : (st.memory.setAttribute (place i) "parent" v).attribute? (place' k) "nodes" =
      some (.object l)) : j = k := by
  have hnew {l' : Address} (hmem : (l', l) ∈ st.memo) : m.size ≤ l :=
    Nat.le_trans (Nat.le_of_eq size_withoutParent.symm) (h.advance.begun.bounds _ _ hmem).2.1
  rcases h.old_or_new hj with ⟨hj, -⟩ | ⟨j, htj, rfl, -⟩ <;>
    rcases h.old_or_new hk with ⟨hk, -⟩ | ⟨k, htk, rfl, -⟩
  · exact h.holds.ownChildren j k l hj hk (h.list_old hj hlj).1 (h.list_old hk hlk).1
  · obtain ⟨l', -, hmem⟩ := h.list_new htk hlk
    exact absurd (h.list_old hj hlj).2 (Nat.not_lt_of_le (hnew hmem))
  · obtain ⟨l', -, hmem⟩ := h.list_new htj hlj
    exact absurd (h.list_old hk hlk).2 (Nat.not_lt_of_le (hnew hmem))
  · obtain ⟨l', hl', hmem⟩ := h.list_new htj hlj
    obtain ⟨l'', hl'', hmem'⟩ := h.list_new htk hlk
    obtain rfl := h.advance.begun.original_unique hmem hmem'
    exact congrArg t (h.holds.ownChildren j k l' (h.consistent.lt_size_of_inTree h.lt_size htj)
      (h.consistent.lt_size_of_inTree h.lt_size htk) hl' hl'')

/-- With the parent given back, the memory has a copy of the tree. -/
theorem hasCopy :
    HasCopy m f place i t g (st.memory.setAttribute (place i) "parent" v) place' where
  mirrors := h.mirrors
  holds :=
    { closed := h.closed
      node := fun j s hs => by
        rcases h.old_or_new (Forest.lt_size_of_get? hs) with ⟨hj, -⟩ | ⟨k, hk, rfl, -⟩
        · exact h.node_old hj hs
        · exact h.node_new hk hs
      injective := fun _ _ => h.injective
      ownChildren := fun _ _ _ => h.ownChildren }
  place_eq := h.old
  get?_eq _ := h.get?_old
  fresh _ := h.le_place
  alike _ _ _ := h.alike
  apart := h.apart

end CopiedAlone

/-- A node of a forest can be copied by itself, and that gives a copy of the tree below it. -/
theorem Holds.exists_copyAlone (h : m.Holds f place) (hf : f.Consistent) (hi : i < f.size)
    (hg : f.Mirrors i t g) : ∃ place' m', copyAlone m (place i) = some (place' (t i), m') ∧
      HasCopy m f place i t g m' place' := by
  obtain ⟨s, o, -, ho, hnode⟩ := h.exists_top hi
  have hparent : m.attribute? (place i) "parent" = some (heldNode place s.parent) := by
    rw [attribute?, ho]
    exact hnode.parent
  have htree := h.holdsTree hi hf
  have hsize : (m.withoutParent (place i)).size = m.size := size_withoutParent
  obtain ⟨w, st, hcopy, hst, htwin⟩ := copy_spec htree.closed (m.size + 1) (.object (place i))
    ⟨m.withoutParent (place i), []⟩ (.start _)
    (fun a ha => Held.object.inj ha ▸ hsize ▸ h.lt_size hi)
    (by rw [hsize]; exact Nat.lt_succ_self _)
  cases htwin with
  | @object _ b hib =>
    obtain ⟨place', hold, hnew⟩ := exists_place hg fun k hk =>
      htree.exists_copy hf hi hst hib hk
    have hcopied : CopiedAlone m f place i (heldNode place s.parent) st t g place' :=
      ⟨h, hf, hi, hparent, hst, hg, hold, hnew⟩
    refine ⟨place', _, ?_, hcopied.hasCopy⟩
    obtain rfl := hst.begun.copy_unique hib (hnew i (.inl rfl))
    unfold copyAlone
    rw [hparent]
    show ((copy (m.size + 1) (.object (place i)) ⟨m.withoutParent (place i), []⟩).bind _) = _
    rw [hcopy]
    rfl

end PixelUnit.Memory
