import PixelUnit.Proofs.Memory.Nodes

/-!
# Copies of nodes

What is copied with a node are the nodes of the tree below it, their lists of children, their raws
and the values in them (`Belongs`), and each node is entered behind its parent, as it is come to
through the list that the parent holds. So the copy of a node is a node that says the same and whose
parent and children are the copies of the parent and the children (`IsNode.copy`).
-/

namespace PixelUnit.Memory

open Sheet

variable {m : Memory} {st : Copying} {f : Forest} {place : NodeId → Address} {o : Object}
  {s : Slot} {a b lo : Address} {i j k : NodeId} {kind : ObjectKind}

/-! ## What is read from a copy -/

/-- A copy of an object, made from parts. -/
structure IsCopy (st : Copying) (lo b : Address) (o o' : Object) : Prop where
  kind_eq : o'.kind = o.kind
  parts : List.Forall₂ (PartTwin st lo b o.kind) o.parts o'.parts

/-- Two things that may be held are atoms of the same value, or both objects, or neither is
there. -/
inductive Similar : Option Held → Option Held → Prop
  | none : Similar none none
  | atom (x : Atom) : Similar (some (.atom x)) (some (.atom x))
  | object (a b : Address) : Similar (some (.object a)) (some (.object b))

/-- A key is looked up with the same success in parts and in their copies, and what is found is a
copy. -/
theorem lookup_cases {ps qs : List (Atom × Held)} (h : List.Forall₂ (PartTwin st lo b kind) ps qs)
    (key : Atom) : (ps.lookup key = none ∧ qs.lookup key = none) ∨ ∃ v w,
      ps.lookup key = some v ∧ qs.lookup key = some w ∧
        PartTwin st lo b kind (key, v) (key, w) := by
  induction h with
  | nil => exact .inl ⟨rfl, rfl⟩
  | @cons p q ps qs hpq _ ih =>
    obtain ⟨k, v⟩ := p
    obtain ⟨l, w⟩ := q
    obtain rfl : l = k := hpq.key_eq
    rw [List.lookup_cons, List.lookup_cons]
    by_cases hk : key = l
    · subst hk
      rw [beq_self_eq_true]
      exact .inr ⟨v, w, rfl, rfl, hpq⟩
    · rw [beq_eq_false_iff_ne.2 hk]
      exact ih

namespace IsCopy

variable {o' : Object}

/-- Under a key, a copy holds the copy of what is held there. -/
theorem get?_cases (h : IsCopy st lo b o o') (key : Atom) :
    (o.get? key = none ∧ o'.get? key = none) ∨ ∃ v w, o.get? key = some v ∧
      o'.get? key = some w ∧ PartTwin st lo b o.kind (key, v) (key, w) :=
  lookup_cases h.parts key

/-- What is not the own business of containers is copied like anything else. -/
theorem get?_eq_some (h : IsCopy st lo b o o') {key : Atom} (hkey : ¬IsOwn o.kind key) {v : Held}
    (hv : o.get? key = some v) : ∃ w, o'.get? key = some w ∧ HeldTwin st.memo v w := by
  rcases h.get?_cases key with ⟨hnone, -⟩ | ⟨v', w, hv', hw, htwin⟩
  · cases hv.symm.trans hnone
  · cases hv.symm.trans hv'
    refine ⟨w, hw, ?_⟩
    cases htwin with
    | plain _ hvw => exact hvw
    | iterations hk => exact absurd ⟨hk, .inl rfl⟩ hkey
    | parent hk | noParent hk => exact absurd ⟨hk, .inr rfl⟩ hkey

/-- A part of a copy is similar to the part it was copied from, but for iterations and parents. -/
theorem similar (h : IsCopy st lo b o o') {name : String} (hkey : ¬IsOwn o.kind (.text name)) :
    Similar (o.attribute? name) (o'.attribute? name) := by
  unfold Object.attribute?
  cases hv : o.get? (.text name) with
  | none =>
    rcases h.get?_cases (.text name) with ⟨-, hnone⟩ | ⟨v, w, hv', -⟩
    · rw [hnone]
      exact .none
    · cases hv.symm.trans hv'
  | some v =>
    obtain ⟨w, hw, htwin⟩ := h.get?_eq_some hkey hv
    rw [hw]
    cases htwin with
    | atom x => exact .atom x
    | object hab => exact .object _ _

/-- A copy has parts with the same keys. -/
theorem map_fst_eq (h : IsCopy st lo b o o') :
    o'.parts.map Prod.fst = o.parts.map Prod.fst := by
  have hparts := h.parts
  generalize o.parts = ps, o'.parts = qs at hparts
  induction hparts with
  | nil => rfl
  | cons hpq _ ih => rw [List.map_cons, List.map_cons, hpq.key_eq, ih]

/-- What a copy holds, the object holds under the same key. -/
theorem exists_mem (h : IsCopy st lo b o o') {key : Atom} {w : Held} (hw : (key, w) ∈ o'.parts) :
    ∃ v, (key, v) ∈ o.parts ∧ PartTwin st lo b o.kind (key, v) (key, w) := by
  obtain ⟨⟨k, v⟩, hv, htwin⟩ := exists_mem_of_forall₂ h.parts.flip hw
  obtain rfl : key = k := htwin.key_eq
  exact ⟨v, hv, htwin⟩

end IsCopy

theorem not_isOwn {name : String} (h : name ≠ "_iterations_" ∧ name ≠ "parent") :
    ¬IsOwn kind (.text name) := by
  rintro ⟨-, heq | heq⟩
  · exact h.1 (Atom.text.inj heq)
  · exact h.2 (Atom.text.inj heq)

theorem not_isOwn_dict (h : kind = .dict) {key : Atom} : ¬IsOwn kind key := by
  rw [h]
  rintro ⟨hk, -⟩
  cases hk

section Similar

variable {o' : Object} {name : String} (h : Similar (o.attribute? name) (o'.attribute? name))

include h

theorem text?_eq : o'.text? name = o.text? name := by
  unfold Object.text?
  generalize o.attribute? name = v, o'.attribute? name = w at h
  cases h <;> rfl

theorem bool?_eq : o'.bool? name = o.bool? name := by
  unfold Object.bool?
  generalize o.attribute? name = v, o'.attribute? name = w at h
  cases h <;> rfl

theorem textOrNone?_eq : o'.textOrNone? name = o.textOrNone? name := by
  unfold Object.textOrNone?
  generalize o.attribute? name = v, o'.attribute? name = w at h
  cases h <;> rfl

theorem entry?_eq : o'.entry? name = o.entry? name := by
  unfold Object.entry?
  generalize o.attribute? name = v, o'.attribute? name = w at h
  cases h <;> rfl

theorem flagEntry?_eq : o'.flagEntry? name = o.flagEntry? name := by
  unfold Object.flagEntry?
  generalize o.attribute? name = v, o'.attribute? name = w at h
  cases h <;> rfl

end Similar

theorem similar_self : ∀ v, Similar v v
  | none => .none
  | some (.atom x) => .atom x
  | some (.object a) => .object a a

/-- The content of a node is read from its attributes, but for its parent and its iterations. -/
theorem content?_eq {o' : Object} (hkind : o'.kind = o.kind) (h : ∀ name,
    name ≠ "_iterations_" ∧ name ≠ "parent" → Similar (o.attribute? name) (o'.attribute? name)) :
    o'.content? = o.content? := by
  unfold Object.content?
  rw [hkind, textOrNone?_eq (h "file" (by decide)), text?_eq (h "selector" (by decide)),
    text?_eq (h "name" (by decide)), text?_eq (h "params" (by decide)),
    bool?_eq (h "body" (by decide)), text?_eq (h "prop" (by decide)),
    text?_eq (h "value" (by decide)), bool?_eq (h "important" (by decide)),
    text?_eq (h "text" (by decide))]

/-- A copy has the content of the node. -/
theorem IsCopy.content?_eq {o' : Object} (h : IsCopy st lo b o o') : o'.content? = o.content? :=
  Memory.content?_eq h.kind_eq fun _ hname => h.similar (not_isOwn hname)

/-! ## What is held by a copy -/

theorem heldBy?_of_atom {name : String} {x : Atom} (h : o.attribute? name = some (.atom x)) :
    m.heldBy? o name = none := by
  unfold heldBy?
  rw [h]
  rfl

/-- The parent of a copy. -/
theorem PartTwin.parent_cases {v w : Held}
    (h : PartTwin st lo b kind (parentKey, v) (parentKey, w)) :
    HeldTwin st.memo v w ∨
      w = .atom .none ∧ ∀ p q, v = .object p → (p, q) ∈ st.memo → b < q := by
  generalize hkey : parentKey = key at h
  cases h with
  | plain _ hvw => exact .inl hvw
  | iterations => exact absurd hkey (by decide)
  | parent _ hpq => exact .inl (.object hpq)
  | noParent _ hpq => exact .inr ⟨rfl, hpq⟩

/-- The iterations of a copy of a container. -/
theorem PartTwin.iterations_cases {v w : Held}
    (h : PartTwin st lo b kind (iterationsKey, v) (iterationsKey, w))
    (hk : kind.isContainer = true) :
    ∃ d, w = .object d ∧ st.memory.get? d = some ⟨.dict, []⟩ := by
  generalize hkey : iterationsKey = key at h
  cases h with
  | plain hown => exact absurd ⟨hk, .inl hkey.symm⟩ hown
  | iterations _ _ hdict => exact ⟨_, rfl, hdict⟩
  | parent | noParent => exact absurd hkey (by decide)

/-- A copy holds an object in place of an object that it is the copy of. -/
theorem PartTwin.exists_object {key : Atom} {v : Held}
    (h : PartTwin st lo b kind (key, v) (key, .object a)) (hkey : ¬IsOwn kind key) :
    ∃ c, v = .object c ∧ (c, a) ∈ st.memo := by
  cases h with
  | plain _ hvw =>
    cases hvw with
    | object hca => exact ⟨_, rfl, hca⟩
  | iterations hk => exact absurd ⟨hk, .inl rfl⟩ hkey
  | parent hk => exact absurd ⟨hk, .inr rfl⟩ hkey

/-- All objects in a memo have copies. -/
def AllCopied (m : Memory) (st : Copying) : Prop :=
  ∀ a b, (a, b) ∈ st.memo → ∃ o o', m.get? a = some o ∧ st.memory.get? b = some o' ∧
    IsCopy st m.size b o o'

/-- All objects that copying has added to the memo have copies once it has come to its end. -/
theorem Advance.allCopied {start : Address → Prop} (h : Advance m start ⟨m, []⟩ st) :
    AllCopied m st := fun a b hab => by
  obtain ⟨o, parts, ho, hcopy, hparts⟩ := h.twin a b hab (h.begun.bounds a b hab).2.1
  exact ⟨o, _, ho, hcopy, rfl, hparts⟩

namespace AllCopied

variable {o' d : Object} {name : String}

/-- What a copy holds under a name is a copy. -/
theorem heldBy? (h : AllCopied m st) (ho : IsCopy st m.size b o o')
    (hkey : ¬IsOwn o.kind (.text name)) (hd : m.heldBy? o name = some d) :
    ∃ c d', st.memory.heldBy? o' name = some d' ∧ IsCopy st m.size c d d' := by
  obtain ⟨a, ha, had⟩ := heldBy?_eq_some_iff.1 hd
  obtain ⟨w, hw, htwin⟩ := ho.get?_eq_some hkey ha
  cases htwin with
  | @object _ c hac =>
    obtain ⟨x, x', hx, hx', hcopy⟩ := h a c hac
    cases had.symm.trans hx
    exact ⟨c, x', heldBy?_eq_some_iff.2 ⟨c, hw, hx'⟩, hcopy⟩

/-- A value as it was written is in a dict of its own, and so is its copy. -/
theorem rawValue?_eq (h : AllCopied m st) {r : Raws} (hraws : IsRaws m r d)
    (hd : IsCopy st m.size b d o') : st.memory.rawValue? o' = m.rawValue? d := by
  have hsame : Similar (d.attribute? "value") (o'.attribute? "value") :=
    hd.similar (not_isOwn_dict hraws.kind_eq)
  unfold rawValue?
  cases hv : d.attribute? "value" with
  | none =>
    rw [hv] at hsame
    generalize o'.attribute? "value" = w at hsame
    cases hsame
    rfl
  | some v =>
    cases v with
    | atom x =>
      rw [hv] at hsame
      generalize hw : o'.attribute? "value" = w at hsame
      cases hsame
      rw [heldBy?_of_atom hv, heldBy?_of_atom hw]
    | object a =>
      obtain ⟨-, e, he, hkind, -⟩ := hraws.value _ a ((get?_eq_some_iff hraws.nodup).1 hv)
      have hheld := heldBy?_eq_some_iff.2 ⟨a, hv, he⟩
      obtain ⟨c, e', hheld', hcopy⟩ := h.heldBy? hd (not_isOwn_dict hraws.kind_eq) hheld
      obtain ⟨a', hw, -⟩ := heldBy?_eq_some_iff.1 hheld'
      have hplain (name : String) : Similar (e.attribute? name) (e'.attribute? name) :=
        hcopy.similar (not_isOwn_dict hkind)
      rw [hw, hheld, hheld']
      simp only [Option.bind_eq_bind, Option.bind_some, text?_eq (hplain "value"),
        text?_eq (hplain "raw")]

/-- The copy of a dict of raws holds the same raws. -/
theorem isRaws (h : AllCopied m st) {r : Raws} (hraws : IsRaws m r d)
    (hd : IsCopy st m.size b d o') : IsRaws st.memory r o' := by
  have hown {key : Atom} : ¬IsOwn d.kind key := not_isOwn_dict hraws.kind_eq
  have hsimilar (name : String) : Similar (d.attribute? name) (o'.attribute? name) :=
    hd.similar hown
  refine ⟨?_, hd.map_fst_eq ▸ hraws.nodup, fun key c hc => ?_⟩
  · rw [← hraws.raws]
    unfold raws?
    rw [hd.kind_eq, h.rawValue?_eq hraws hd, entry?_eq (hsimilar "before"),
      entry?_eq (hsimilar "after"), entry?_eq (hsimilar "between"),
      flagEntry?_eq (hsimilar "semicolon"), entry?_eq (hsimilar "after_name"),
      entry?_eq (hsimilar "important"), entry?_eq (hsimilar "trailing"),
      entry?_eq (hsimilar "left"), entry?_eq (hsimilar "right")]
  · obtain ⟨v, hv, htwin⟩ := hd.exists_mem hc
    obtain ⟨a, rfl, hac⟩ := htwin.exists_object hown
    obtain ⟨hkey, e, he, hkind, hatoms⟩ := hraws.value key a hv
    obtain ⟨x, e', hx, he', hcopy⟩ := h a c hac
    cases he.symm.trans hx
    refine ⟨hkey, e', he', hcopy.kind_eq.trans hkind, fun key' c' hc' => ?_⟩
    obtain ⟨v', hv', htwin'⟩ := hcopy.exists_mem hc'
    obtain ⟨a', rfl, -⟩ := htwin'.exists_object (not_isOwn_dict hkind)
    exact hatoms key' a' hv'

/-- The copy of a list of nodes. -/
theorem children_eq (hst : Begun m st) {place' : NodeId → Address} {t : NodeId → NodeId}
    {js : List NodeId} (hplace : ∀ j ∈ js, (place j, place' (t j)) ∈ st.memo)
    {qs : List (Atom × Held)}
    (h : List.Forall₂ (PartTwin st lo b kind) (js.map fun j => (.none, .object (place j))) qs) :
    qs = (js.map t).map fun j => (.none, .object (place' j)) := by
  induction js generalizing qs with
  | nil =>
    cases h
    rfl
  | cons j js ih =>
    obtain ⟨hj, hjs⟩ := List.forall_mem_cons.1 hplace
    cases h with
    | @cons _ q _ qs hq hqs =>
      rw [List.map_cons, List.map_cons, ← ih hjs hqs]
      congr 1
      obtain ⟨key, w⟩ := q
      obtain rfl : key = .none := hq.key_eq
      cases hq with
      | plain _ hvw =>
        cases hvw with
        | object hc => rw [hst.copy_unique hc hj]

section Nodes

variable {place' : NodeId → Address} {t : NodeId → NodeId}

/-- The parent of a copy is the copy of the parent, if that has been made before. -/
theorem parent_eq (hst : Begun m st) (ho : IsNode m place s o) (hcopy : IsCopy st m.size b o o')
    (hparent : ∀ p, s.parent = some p → (place p, place' (t p)) ∈ st.memo ∧ place' (t p) < b) :
    o'.attribute? "parent" = some (heldNode place' (s.parent.map t)) := by
  rcases hcopy.get?_cases parentKey with ⟨hnone, -⟩ | ⟨v, w, hv, hw, htwin⟩
  · cases ho.parent.symm.trans hnone
  · cases ho.parent.symm.trans hv
    refine hw.trans (congrArg some ?_)
    rcases htwin.parent_cases with hvw | ⟨rfl, hlater⟩
    · cases hp : s.parent with
      | none =>
        rw [hp] at hvw
        cases hvw
        rfl
      | some p =>
        rw [hp] at hvw
        cases hvw with
        | object hq => exact congrArg Held.object (hst.copy_unique hq (hparent p hp).1)
    · cases hp : s.parent with
      | none => rfl
      | some p =>
        obtain ⟨hmem, hlt⟩ := hparent p hp
        rw [hp] at hlater
        exact absurd (hlater _ _ rfl hmem) (Nat.lt_asymm hlt)

/-- The children of a copy are the copies of the children. -/
theorem nodes_eq (h : AllCopied m st) (hst : Begun m st) (hcopy : IsCopy st m.size b o o')
    (hchildren : ∀ j ∈ s.children, (place j, place' (t j)) ∈ st.memo)
    (hnodes : m.heldBy? o "nodes" =
      some ⟨.list, s.children.map fun j => (.none, .object (place j))⟩) :
    st.memory.heldBy? o' "nodes" =
      some ⟨.list, (s.children.map t).map fun j => (.none, .object (place' j))⟩ := by
  obtain ⟨c, l, hl, hlcopy⟩ := h.heldBy? hcopy (not_isOwn (by decide)) hnodes
  rw [hl]
  obtain ⟨lkind, lparts⟩ := l
  obtain rfl : lkind = .list := hlcopy.kind_eq
  have hlparts : lparts = _ := children_eq hst hchildren hlcopy.parts
  rw [hlparts]

/-- A copy has no iterations. -/
theorem iterations_eq (hk : o.kind.isContainer = true) (hcopy : IsCopy st m.size b o o')
    (hiterations : m.heldBy? o "_iterations_" = some d) :
    st.memory.heldBy? o' "_iterations_" = some ⟨.dict, []⟩ := by
  obtain ⟨a, ha, -⟩ := heldBy?_eq_some_iff.1 hiterations
  rcases hcopy.get?_cases iterationsKey with ⟨hnone, -⟩ | ⟨v, w, -, hw, htwin⟩
  · cases ha.symm.trans hnone
  · obtain ⟨c, rfl, hdict⟩ := htwin.iterations_cases hk
    exact heldBy?_eq_some_iff.2 ⟨c, hw, hdict⟩

/-- The copy of a node is a node that says the same, if its parent has been copied before it and its
children have been copied. Its parent and its children are the copies, and no iterations run. -/
theorem isNode (h : AllCopied m st) (hst : Begun m st) (ho : IsNode m place s o)
    (hcopy : IsCopy st m.size b o o')
    (hchildren : ∀ j ∈ s.children, (place j, place' (t j)) ∈ st.memo)
    (hparent : ∀ p, s.parent = some p → (place p, place' (t p)) ∈ st.memo ∧ place' (t p) < b) :
    IsNode st.memory place' (s.twin (s.parent.map t) t) o' := by
  constructor
  · exact hcopy.content?_eq.trans ho.content
  · exact parent_eq hst ho hcopy hparent
  · obtain ⟨d, hd, hraws⟩ := ho.raws
    obtain ⟨c, d', hd', hdcopy⟩ := h.heldBy? hcopy (not_isOwn (by decide)) hd
    exact ⟨d', hd', h.isRaws hraws hdcopy⟩
  · intro hs
    obtain ⟨hnodes, hiterations, hlast⟩ := ho.children hs
    refine ⟨h.nodes_eq hst hcopy hchildren hnodes,
      iterations_eq (ho.isContainer_eq.trans hs) hcopy hiterations, ?_⟩
    obtain ⟨w, hw, htwin⟩ := hcopy.get?_eq_some (not_isOwn (by decide)) hlast
    cases htwin
    exact hw
  · intro n hn
    obtain ⟨v, hv⟩ := Option.isSome_iff_exists.1 (ho.extras n hn)
    rcases hcopy.get?_cases (.text n) with ⟨hnone, -⟩ | ⟨v', w, -, hw, -⟩
    · cases hv.symm.trans hnone
    · exact Option.isSome_iff_exists.2 ⟨w, hw⟩
  · exact hcopy.map_fst_eq ▸ ho.nodup
  · exact hcopy.map_fst_eq ▸ ho.own
  · intro key c hc
    obtain ⟨v, hv, htwin⟩ := hcopy.exists_mem hc
    by_cases hown : IsOwn o.kind key
    · obtain ⟨hk, rfl | rfl⟩ := hown
      · exact .inr ⟨ho.isContainer_eq ▸ hk, by simp⟩
      · exact .inl List.mem_cons_self
    · obtain ⟨a, rfl, -⟩ := htwin.exists_object hown
      exact ho.held key a hv

end Nodes

end AllCopied

end PixelUnit.Memory
