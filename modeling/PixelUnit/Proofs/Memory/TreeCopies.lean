import PixelUnit.Proofs.Memory.NodeCopies

/-!
# Copies of trees

A copy starts at the top of a tree that has no parent. What is come to from there are the nodes of
the tree, their lists of children, their raws and the values in them (`Part`); a leaf leads back to
its parent. All nodes of the tree are come to, each through the list of its parent, and so each is
entered behind its parent (`HoldsTree.lt_of_hangsFrom`), by induction on the numbers of the copies.
This is what a copy of a node has to rely on to get the copy of the parent as its parent
(`HoldsTree.isNode_copy`).
-/

namespace PixelUnit.Memory

open Sheet

variable {m : Memory} {st : Copying} {f : Forest} {place : NodeId → Address} {o : Object}
  {s : Slot} {a b c l x : Address} {i j k p : NodeId}

/-- A node as the top of a tree or below it. -/
def slotIn (i k : NodeId) (s : Slot) : Slot :=
  { s with parent := if k = i then none else s.parent }

/-- The tree below a node is in memory, without the parent of the node. -/
structure HoldsTree (m : Memory) (f : Forest) (i : NodeId) (place : NodeId → Address) : Prop where
  closed : m.Closed
  node : ∀ k s, f.InTree i k → f.get? k = some s →
    ∃ o, m.get? (place k) = some o ∧ IsNode m place (slotIn i k s) o
  injective : ∀ k l, f.InTree i k → f.InTree i l → place k = place l → k = l
  ownChildren : ∀ (k j : NodeId) (l : Address), f.InTree i k → f.InTree i j →
    m.attribute? (place k) "nodes" = some (.object l) →
    m.attribute? (place j) "nodes" = some (.object l) → k = j

/-- An object is the list of the children of a node. -/
structure IsList (m : Memory) (f : Forest) (place : NodeId → Address) (k : NodeId) (l : Address) :
    Prop where
  attribute?_eq : m.attribute? (place k) "nodes" = some (.object l)
  get?_eq : m.get? l = some ⟨.list, (f.childrenOf k).map fun j => (.none, .object (place j))⟩

/-- What is copied with the tree below a node. -/
inductive Part (m : Memory) (f : Forest) (i : NodeId) (place : NodeId → Address) : Address → Prop
  | node {k : NodeId} (hk : f.InTree i k) : Part m f i place (place k)
  | list {k : NodeId} {l : Address} (hk : f.InTree i k) (hl : IsList m f place k l) :
    Part m f i place l
  | raws {a : Address} {d : Object} {r : Raws} (hd : m.get? a = some d) (hraws : IsRaws m r d) :
    Part m f i place a
  | value {a : Address} {e : Object} (he : m.get? a = some e) (hkind : e.kind = .dict)
      (hatoms : ∀ key b, (key, .object b) ∉ e.parts) : Part m f i place a

/-- The ways from one of these to another. -/
inductive Way (m : Memory) (f : Forest) (i : NodeId) (place : NodeId → Address) :
    Address → Address → Prop
  | up {k p : NodeId} (hk : f.InTree i k) (hne : k ≠ i) (hp : f.InTree i p)
      (hkp : f.HangsFrom k p) :
    Way m f i place (place k) (place p)
  | list {k : NodeId} {l : Address} (hk : f.InTree i k) (hl : IsList m f place k l) :
    Way m f i place (place k) l
  | down {k j : NodeId} {l : Address} (hk : f.InTree i k) (hl : IsList m f place k l)
      (hj : j ∈ f.childrenOf k) : Way m f i place l (place j)
  | dict {x a : Address} {d : Object} (hd : m.get? a = some d) (hkind : d.kind = .dict) :
    Way m f i place x a

/-- A node of the tree that holds a parent hangs from that, and is not the topmost one. -/
theorem exists_parent_of_slotIn {s : Slot}
    (hparent : o.attribute? "parent" = some (heldNode place (slotIn i k s).parent))
    (ha : o.attribute? "parent" = some (.object a)) :
    k ≠ i ∧ ∃ p, s.parent = some p ∧ a = place p := by
  have hheld := ha.symm.trans hparent
  by_cases hki : k = i
  · rw [slotIn, if_pos hki] at hheld
    cases hheld
  · rw [slotIn, if_neg hki] at hheld
    cases hp : s.parent with
    | none =>
      rw [hp] at hheld
      cases hheld
    | some p =>
      rw [hp] at hheld
      cases hheld
      exact ⟨hki, p, rfl, rfl⟩

namespace HoldsTree

/-- The object of a node of the tree. -/
theorem exists_node (h : m.HoldsTree f i place) (hf : f.Consistent) (hi : i < f.size)
    (hk : f.InTree i k) : ∃ s o, f.get? k = some s ∧ m.get? (place k) = some o ∧
      IsNode m place (slotIn i k s) o := by
  obtain ⟨s, hs⟩ := Forest.get?_eq_some_of_lt (hf.lt_size_of_inTree hi hk)
  obtain ⟨o, ho, hnode⟩ := h.node k s hk hs
  exact ⟨s, o, hs, ho, hnode⟩

/-- A node is neither a dict nor a list. -/
theorem kind_ne (h : m.HoldsTree f i place) (hf : f.Consistent) (hi : i < f.size)
    (hk : f.InTree i k) (ho : m.get? (place k) = some o) : o.kind ≠ .dict ∧ o.kind ≠ .list := by
  obtain ⟨s, o', -, ho', hnode⟩ := h.exists_node hf hi hk
  cases ho.symm.trans ho'
  rw [kind_of_content? hnode.content]
  exact ⟨nofun, nofun⟩

/-- A container in a tree in memory has a list of its children. -/
theorem isList (h : m.HoldsTree f i place) (hf : f.Consistent) (hi : i < f.size)
    (hk : f.InTree i k) (hcontainer : f.isContainer k = true) :
    ∃ l, IsList m f place k l := by
  obtain ⟨s, o, hs, ho, hnode⟩ := h.exists_node hf hi hk
  rw [Forest.isContainer, Forest.contentOf_of_get? hs, Option.any_some] at hcontainer
  obtain ⟨l, hl, hget⟩ := hnode.nodes_of_mem hcontainer
  refine ⟨l, ?_, ?_⟩
  · rw [attribute?, ho]
    exact hl
  · rw [Forest.childrenOf_of_get? hs]
    exact hget

/-- A node leads to its parent, its raws and its list of children, and a container not to its
parent. -/
theorem part_of_mem_node (h : m.HoldsTree f i place) (hf : f.Consistent) (hi : i < f.size)
    (hk : f.InTree i k) (ho : m.get? (place k) = some o) {key : Atom}
    (hkey : (key, .object a) ∈ o.parts) (hown : ¬IsOwn o.kind key) :
    Part m f i place a ∧ Way m f i place (place k) a := by
  obtain ⟨s, o', hs, ho', hnode⟩ := h.exists_node hf hi hk
  cases ho.symm.trans ho'
  have hattribute {name : String} (hmem : (.text name, .object a) ∈ o.parts) :
      o.attribute? name = some (.object a) :=
    (get?_eq_some_iff hnode.nodup).2 hmem
  rcases hnode.held key a hkey with hcommon | ⟨hcontainer, hlist⟩
  · rcases List.mem_pair.1 hcommon with rfl | rfl
    · obtain ⟨hne, p, hp, rfl⟩ := exists_parent_of_slotIn hnode.parent (hattribute hkey)
      have hp' := hk.parent hne hs hp
      exact ⟨.node hp', .up hk hne hp' ((Forest.parentOf_of_get? hs).trans hp)⟩
    · obtain ⟨d, hd, hraws⟩ := hnode.raws
      obtain ⟨a', ha', had⟩ := heldBy?_eq_some_iff.1 hd
      cases (hattribute hkey).symm.trans ha'
      exact ⟨.raws had hraws, .dict had hraws.kind_eq⟩
  · rcases List.mem_pair.1 hlist with rfl | rfl
    · obtain ⟨l, hl, hget⟩ := hnode.nodes_of_mem hcontainer
      cases (hattribute hkey).symm.trans hl
      have hlist : IsList m f place k a := by
        refine ⟨?_, ?_⟩
        · rw [attribute?, ho]
          exact hl
        · rw [Forest.childrenOf_of_get? hs]
          exact hget
      exact ⟨.list hk hlist, .list hk hlist⟩
    · exact absurd ⟨hnode.isContainer_eq.trans hcontainer, .inl rfl⟩ hown

/-- What a part leads to is a part again. -/
theorem part_of_leadsTo (h : m.HoldsTree f i place) (hf : f.Consistent) (hi : i < f.size)
    (hx : Part m f i place x) (hxa : m.LeadsTo x a) :
    Part m f i place a ∧ Way m f i place x a := by
  obtain ⟨o, ho, key, hkey, hown⟩ := hxa
  cases hx with
  | node hk => exact h.part_of_mem_node hf hi hk ho hkey hown
  | list hk hl =>
    cases ho.symm.trans hl.get?_eq
    obtain ⟨j, hj, heq⟩ := List.mem_map.1 hkey
    cases heq
    exact ⟨.node (hf.inTree_child hk hj), .down hk hl hj⟩
  | raws hd hraws =>
    cases ho.symm.trans hd
    obtain ⟨-, e, he, hkind, hatoms⟩ := hraws.value key a hkey
    exact ⟨.value he hkind hatoms, .dict he hkind⟩
  | value he _ hatoms =>
    cases ho.symm.trans he
    exact absurd hkey (hatoms key a)

/-! ## What is copied -/

variable (h : m.HoldsTree f i place) (hf : f.Consistent) (hi : i < f.size)
  (hst : Advance m (Held.object (place i) = .object ·) ⟨m, []⟩ st)

include h hf hi hst

/-- Only parts of the tree are copied. -/
theorem part_of_mem (b : Address) : ∀ a, (a, b) ∈ st.memo → Part m f i place a := by
  induction b using Nat.strongRecOn with
  | ind b ih =>
    intro a hab
    rcases hst.found a b hab (hst.begun.bounds a b hab).2.1 with heq | ⟨x, y, hxy, hy, hleads⟩
    · cases heq
      exact .node (.inl rfl)
    · exact (h.part_of_leadsTo hf hi (ih y hy x hxy) hleads).1

/-- Each copy but the first is made on a way from an earlier one. -/
theorem way_of_mem (hab : (a, b) ∈ st.memo) : a = place i ∨
    ∃ x y, (x, y) ∈ st.memo ∧ y < b ∧ Way m f i place x a := by
  rcases hst.found a b hab (hst.begun.bounds a b hab).2.1 with heq | ⟨x, y, hxy, hy, hleads⟩
  · cases heq
    exact .inl rfl
  · exact .inr ⟨x, y, hxy, hy, (h.part_of_leadsTo hf hi (h.part_of_mem hf hi hst y x hxy) hleads).2⟩

/-- The list of a node is copied behind the node. -/
theorem lt_of_isList (hk : f.InTree i k) (hl : IsList m f place k l) (hlb : (l, b) ∈ st.memo)
    (hkc : (place k, c) ∈ st.memo) : c < b := by
  rcases h.way_of_mem hf hi hst hlb with rfl | ⟨x, y, hxy, hy, hway⟩
  · exact absurd rfl (h.kind_ne hf hi (.inl rfl) hl.get?_eq).2
  · generalize hla : l = a at hway
    cases hway with
    | @up k' p hk' _ hp hkp =>
      subst hla
      exact absurd rfl (h.kind_ne hf hi hp hl.get?_eq).2
    | @list k' _ hk' hl' =>
      subst hla
      obtain rfl : k = k' := h.ownChildren k k' l hk hk' hl.attribute?_eq hl'.attribute?_eq
      exact hst.begun.copy_unique hxy hkc ▸ hy
    | @down k' j _ hk' hl' hj =>
      subst hla
      exact absurd rfl (h.kind_ne hf hi (hf.inTree_child hk' hj) hl.get?_eq).2
    | dict hd hkind =>
      subst hla
      cases hl.get?_eq.symm.trans hd
      cases hkind

/-- A node is copied behind its parent. -/
theorem lt_of_hangsFrom (b : Address) : ∀ k p c, f.InTree i k → k ≠ i → f.HangsFrom k p →
    (place k, b) ∈ st.memo → (place p, c) ∈ st.memo → c < b := by
  induction b using Nat.strongRecOn with
  | ind b ih =>
    intro k p c hk hki hkp hkb hpc
    have hp : f.InTree i p := by
      obtain ⟨q, hq, hin⟩ := hk.exists_parent hki
      exact Option.some.inj (hq.symm.trans hkp) ▸ hin
    rcases h.way_of_mem hf hi hst hkb with heq | ⟨x, y, hxy, hy, hway⟩
    · exact absurd (h.injective k i hk (.inl rfl) heq) hki
    · generalize hka : place k = a at hway
      cases hway with
      | @up k' p' hk' hne hp' hkp' =>
        -- a leaf below the node would have been copied before it
        obtain rfl : k = p' := h.injective k p' hk hp' hka
        exact absurd hy (Nat.lt_asymm (ih y hy k' k b hk' hne hkp' hxy hkb))
      | @list k' _ hk' hl' =>
        subst hka
        exact absurd rfl (h.kind_ne hf hi hk hl'.get?_eq).2
      | @down k' j _ hk' hl' hj =>
        obtain rfl : k = j := h.injective k j hk (hf.inTree_child hk' hj) hka
        obtain rfl : k' = p :=
          Option.some.inj (((hf.mem_childrenOf_iff k k').1 hj).symm.trans hkp)
        exact Nat.lt_trans (h.lt_of_isList hf hi hst hk' hl' hxy hpc) hy
      | dict hd hkind =>
        subst hka
        exact absurd hkind (h.kind_ne hf hi hk hd).1

/-- The child of a node that has a copy is copied with the list of the node. -/
theorem exists_copy_of_hangsFrom (hp : f.InTree i p) (hkp : f.HangsFrom k p)
    (hpc : (place p, c) ∈ st.memo) : ∃ b, (place k, b) ∈ st.memo := by
  have hk : k ∈ f.childrenOf p := (hf.mem_childrenOf_iff k p).2 hkp
  obtain ⟨l, hl⟩ := h.isList hf hi hp (hf.isContainer_of_mem k p hk)
  obtain ⟨o, o', ho, -, hcopy⟩ := hst.allCopied _ _ hpc
  have hheld : o.attribute? "nodes" = some (.object l) := by
    have hattribute := hl.attribute?_eq
    rwa [attribute?, ho] at hattribute
  obtain ⟨w, -, htwin⟩ := hcopy.get?_eq_some (not_isOwn (by decide)) hheld
  cases htwin with
  | object hlist =>
    obtain ⟨x, x', hx, -, hlcopy⟩ := hst.allCopied _ _ hlist
    cases hl.get?_eq.symm.trans hx
    obtain ⟨⟨key, v⟩, -, htwin⟩ := exists_mem_of_forall₂ hlcopy.parts
      (List.mem_map.2 ⟨k, hk, rfl⟩)
    obtain rfl : key = .none := htwin.key_eq
    cases htwin with
    | plain _ hvw =>
      cases hvw with
      | object hkb => exact ⟨_, hkb⟩

/-- All nodes of the tree are copied. -/
theorem exists_copy (htop : (place i, c) ∈ st.memo) (hk : f.InTree i k) :
    ∃ b, (place k, b) ∈ st.memo := by
  rcases hk with rfl | hbelow
  · exact ⟨c, htop⟩
  · induction hbelow using Relation.TransGen.head_induction_on with
    | single hki => exact h.exists_copy_of_hangsFrom hf hi hst (.inl rfl) hki htop
    | head hkp hp ih =>
      obtain ⟨b, hb⟩ := ih
      exact h.exists_copy_of_hangsFrom hf hi hst (.inr hp) hkp hb

/-- The copy of a node of the tree is the twin of the node. -/
theorem isNode_copy {place' : NodeId → Address} {t : NodeId → NodeId}
    (hplace : ∀ k, f.InTree i k → (place k, place' (t k)) ∈ st.memo) (hk : f.InTree i k)
    (hs : f.get? k = some s) : ∃ o, st.memory.get? (place' (t k)) = some o ∧
      IsNode st.memory place' (s.twin (if k = i then none else s.parent.map t) t) o := by
  obtain ⟨o, ho, hnode⟩ := h.node k s hk hs
  obtain ⟨x, o', hx, ho', hcopy⟩ := hst.allCopied _ _ (hplace k hk)
  cases ho.symm.trans hx
  refine ⟨o', ho', ?_⟩
  have hchildren : ∀ j ∈ (slotIn i k s).children, (place j, place' (t j)) ∈ st.memo := by
    intro j hj
    exact hplace j (hf.inTree_child hk (by rwa [Forest.childrenOf_of_get? hs]))
  have hparent : ∀ p, (slotIn i k s).parent = some p →
      (place p, place' (t p)) ∈ st.memo ∧ place' (t p) < place' (t k) := by
    intro p hp
    by_cases hki : k = i
    · rw [slotIn, if_pos hki] at hp
      cases hp
    · rw [slotIn, if_neg hki] at hp
      have hp' := hk.parent hki hs hp
      have hkp : f.HangsFrom k p := (Forest.parentOf_of_get? hs).trans hp
      exact ⟨hplace p hp', h.lt_of_hangsFrom hf hi hst _ k p _ hk hki hkp (hplace k hk)
        (hplace p hp')⟩
  have htwin := hst.allCopied.isNode hst.begun hnode hcopy hchildren hparent
  rwa [show (slotIn i k s).parent.map t = if k = i then none else s.parent.map t from
    apply_ite (Option.map t) ..] at htwin

end HoldsTree

end PixelUnit.Memory
