import PixelUnit.Proofs.Memory.Layouts

/-!
# Clones

A clone of a node is a copy of the tree below it in objects of its own: it is detached from all that
was there, which stays as it is (`Holds.clone_detached`). Attributes that are given anew are set one
after the other, up to the first that cannot be set. Setting one does not change which others can be
set, so that it can be told from the node which one that is.
-/

namespace PixelUnit.Memory

open Sheet

variable {m : Memory} {f g : Forest} {place place' : NodeId → Address} {o o' : Object}
  {a b : Address} {i : NodeId} {t : NodeId → NodeId} {name : String} {v : Held}

/-! ## Attributes that can be set -/

/-- An attribute is there if its name is among the names of the parts. -/
theorem isSome_attribute?_iff (o : Object) (name : String) :
    (o.attribute? name).isSome ↔ .text name ∈ o.parts.map Prod.fst := by
  constructor
  · intro h
    obtain ⟨v, hv⟩ := Option.isSome_iff_exists.1 h
    exact List.mem_map.2 ⟨_, mem_of_attribute? hv, rfl⟩
  · intro h
    obtain ⟨⟨key, v⟩, hv, rfl⟩ := List.mem_map.1 h
    cases hnone : o.attribute? name with
    | some _ => rfl
    | none => exact absurd rfl (bne_iff_ne.1 (List.lookup_eq_none_iff.1 hnone _ hv))

/-- Which attributes can be set depends on the names of those that an object has. -/
theorem Alike.refusal?_eq (h : Alike o o') (name : String) :
    o'.refusal? name = o.refusal? name := by
  have hown : (o'.attribute? name).isSome = (o.attribute? name).isSome := by
    rw [Bool.eq_iff_iff, isSome_attribute?_iff, isSome_attribute?_iff, h.names_eq]
  unfold Object.refusal?
  rw [h.kind_eq, hown]

/-- Setting an attribute does not change which attributes can be set. -/
theorem refusal?_set (h : o.refusal? name = none) (v : Held) (other : String) :
    (o.set name v).refusal? other = o.refusal? other := by
  have hkind : (o.set name v).kind = o.kind := rfl
  unfold Object.refusal? at h ⊢
  rw [hkind, Object.attribute?_set]
  by_cases hother : other = name
  · subst hother
    rw [if_pos rfl]
    cases hnode : o.kind with
    | dict | list => rfl
    | node c =>
      rw [hnode] at h
      dsimp only at h ⊢
      unfold NodeClass.refusal? at h ⊢
      split_ifs at h ⊢
      all_goals simp_all
  · rw [if_neg hother]

/-- Setting attributes that can be set does not change which others can be. -/
theorem refusal?_setAll {xs : List Override} (h : ∀ x ∈ xs, o.refusal? x.name = none)
    (name : String) : (o.setAll xs).refusal? name = o.refusal? name := by
  induction xs generalizing o with
  | nil => rfl
  | cons x xs ih =>
    obtain ⟨hx, hxs⟩ := List.forall_mem_cons.1 h
    exact (ih fun y hy => (refusal?_set hx _ _).trans (hxs y hy)).trans (refusal?_set hx _ _)

/-- Setting attributes under other names leaves an attribute as it is. -/
theorem attribute?_setAll {xs : List Override} (h : ∀ x ∈ xs, x.name ≠ name) :
    (o.setAll xs).attribute? name = o.attribute? name := by
  induction xs generalizing o with
  | nil => rfl
  | cons x xs ih =>
    obtain ⟨hx, hxs⟩ := List.forall_mem_cons.1 h
    exact (ih hxs).trans (attribute?_set_of_ne o (Ne.symm hx) _)

/-- Of some attributes all can be set, or there is a first one that cannot. -/
theorem all_set_or (o : Object) (xs : List Override) :
    (∀ x ∈ xs, o.refusal? x.name = none) ∨ ∃ front x back e, xs = front ++ x :: back ∧
      (∀ y ∈ front, o.refusal? y.name = none) ∧ o.refusal? x.name = some e := by
  induction xs with
  | nil => exact .inl (List.forall_mem_nil _)
  | cons x xs ih =>
    cases hx : o.refusal? x.name with
    | some e => exact .inr ⟨[], x, xs, e, rfl, List.forall_mem_nil _, hx⟩
    | none =>
      rcases ih with h | ⟨front, y, back, e, rfl, hfront, hy⟩
      · exact .inl (List.forall_mem_cons.2 ⟨hx, h⟩)
      · exact .inr ⟨x :: front, y, back, e, rfl, List.forall_mem_cons.2 ⟨hx, hfront⟩, hy⟩

/-! ## Setting them -/

/-- An action goes on with the result of its first line, in the memory that this leaves. -/
theorem Action.bind_of_ok {α β : Type} {x : Action α} {v : α} {e : Memory} (h : x m = .ok v e)
    (k : α → Action β) : (x >>= k) m = k v e := by
  show EStateM.bind x k m = _
  rw [EStateM.bind, h]

/-- An action ends with the failure of its first line. -/
theorem Action.bind_of_error {α β : Type} {x : Action α} {fault : CopyError} {e : Memory}
    (h : x m = .error fault e) (k : α → Action β) : (x >>= k) m = .error fault e := by
  show EStateM.bind x k m = _
  rw [EStateM.bind, h]

theorem Action.get_bind_apply {β : Type} (k : Memory → Action β) : (get >>= k) m = k m m := rfl

/-- The first attribute is set, if it can be, and then the others. -/
theorem overrideAll_cons {x : Override} (ho : m.get? b = some o) (hx : o.refusal? x.name = none)
    (xs : List Override) :
    overrideAll b (x :: xs) m = overrideAll b xs (m.setAttribute b x.name x.value) := by
  rw [overrideAll, Action.get_bind_apply]
  simp only [ho, hx]
  rfl

/-- If the first attribute cannot be set, no other is. -/
theorem overrideAll_cons_error {x : Override} {e : CopyError} (ho : m.get? b = some o)
    (hx : o.refusal? x.name = some e) (xs : List Override) :
    overrideAll b (x :: xs) m = .error (m.fault o e) m := by
  rw [overrideAll, Action.get_bind_apply]
  simp only [ho, hx]
  rfl

/-- Attributes that can be set are set one after the other, and nothing else changes. -/
theorem exists_overrideAll {front : List Override} (ho : m.get? b = some o)
    (hfront : ∀ x ∈ front, o.refusal? x.name = none) :
    ∃ e, (∀ xs, overrideAll b (front ++ xs) m = overrideAll b xs e) ∧
      e.get? b = some (o.setAll front) ∧ ∀ a, a ≠ b → e.get? a = m.get? a := by
  induction front generalizing m o with
  | nil => exact ⟨m, fun _ => rfl, ho, fun _ _ => rfl⟩
  | cons x front ih =>
    obtain ⟨hx, hfront⟩ := List.forall_mem_cons.1 hfront
    have hset : (m.setAttribute b x.name x.value).get? b = some (o.set x.name x.value) := by
      rw [get?_setAttribute, if_pos rfl, ho, Option.map_some]
    obtain ⟨e, hrun, hb, hothers⟩ := ih hset fun y hy =>
      (refusal?_set hx _ _).trans (hfront y hy)
    refine ⟨e, fun xs => (overrideAll_cons ho hx _).trans (hrun xs), hb, fun a ha => ?_⟩
    rw [hothers a ha, get?_setAttribute, if_neg (Ne.symm ha)]

/-- A clone is a copy whose attributes are set. -/
theorem clone_of_copyAlone {xs : List Override} {m' : Memory}
    (h : copyAlone m a = some (b, m')) : (clone a xs).run m =
      (do overrideAll b xs; return b : Action Address).run m' := by
  rw [clone, EStateM.run, Action.get_bind_apply]
  simp only [h]
  rfl

/-- A clone is made if all its attributes can be set. -/
theorem clone_ok {xs : List Override} {m' e : Memory} (h : copyAlone m a = some (b, m'))
    (hxs : overrideAll b xs m' = .ok () e) : (clone a xs).run m = .ok b e := by
  rw [clone_of_copyAlone h, EStateM.run, Action.bind_of_ok hxs]
  rfl

/-- A clone fails as the setting of its attributes does. -/
theorem clone_error {xs : List Override} {m' e : Memory} {fault : CopyError}
    (h : copyAlone m a = some (b, m')) (hxs : overrideAll b xs m' = .error fault e) :
    (clone a xs).run m = .error fault e := by
  rw [clone_of_copyAlone h, EStateM.run, Action.bind_of_error hxs]

/-! ## What fails -/

/-- An attribute of a node that cannot be set is missing or read-only, or it is the class. -/
theorem refusal?_cases {e : CopyError} {c : NodeClass} (hkind : o.kind = .node c)
    (h : o.refusal? name = some e) :
    (name = "__class__" ∧ e = .notAClass) ∨
      (e = .readOnly c name ∧ c.readOnlyNames.contains name = true) ∨ e = .noAttribute c name := by
  have hclass : o.refusal? name = c.refusal? (o.attribute? name).isSome name := by
    unfold Object.refusal?
    rw [hkind]
  rw [hclass, NodeClass.refusal?] at h
  split_ifs at h with hname hreadOnly
  · exact .inl ⟨hname, (Option.some.inj h).symm⟩
  · exact .inr (.inl ⟨(Option.some.inj h).symm, hreadOnly⟩)
  · exact .inr (.inr (Option.some.inj h).symm)

/-- A container has a list of its children. -/
theorem IsNode.exists_list {s : Slot} (ho : IsNode m place s o)
    (hcontainer : o.kind.isContainer = true) : ∃ l x, o.attribute? "nodes" = some (.object l) ∧
      m.get? l = some x ∧ x.kind = .list := by
  obtain ⟨l, hl, hget⟩ := ho.nodes_of_mem (ho.isContainer_eq.symm.trans hcontainer)
  exact ⟨l, _, hl, hget, rfl⟩

/-- What is computed from the list of children can be computed as long as that is the list. -/
theorem fault_eq {e : CopyError} (h : ∀ c name, e = .readOnly c name → c.isContainer = true →
    m.hasList o = true) : m.fault o e = e := by
  cases e with
  | readOnly c name =>
    cases hc : c.isContainer with
    | false => simp [fault, NodeClass.computedNames, hc]
    | true => simp [fault, h c name rfl hc]
  | noAttribute | notAClass | notComputed | unfinished => rfl

/-- An attribute that cannot be set is reported as such, or cannot be computed for the report. -/
theorem fault_readOnly (m : Memory) (o : Object) (c : NodeClass) (name : String) :
    m.fault o (.readOnly c name) = .readOnly c name ∨
      m.fault o (.readOnly c name) = .notComputed name := by
  show ite .. = _ ∨ ite .. = _
  split
  · exact .inr rfl
  · exact .inl rfl

/-- What setting attributes of a node fails with. -/
theorem exists_overrideAll_error {s : Slot} {front back : List Override} {x : Override}
    {e : CopyError} (ho : m.get? b = some o) (hnode : IsNode m place s o)
    (hfront : ∀ y ∈ front, o.refusal? y.name = none) (hx : o.refusal? x.name = some e) :
    ∃ fault m', overrideAll b (front ++ x :: back) m = .error fault m' ∧
      (∀ a, a ≠ b → m'.get? a = m.get? a) ∧
      ((fault = e ∧ (fault.isAboutAttribute = true ∨ x.name = "__class__")) ∨
        (fault = .notComputed x.name ∧ ∃ y ∈ front, y.name = "nodes")) := by
  obtain ⟨m', hrun, hb, hothers⟩ := exists_overrideAll ho hfront
  have hkind := kind_of_content? hnode.content
  have hx' : (o.setAll front).refusal? x.name = some e := (refusal?_setAll hfront _).trans hx
  refine ⟨_, m', (hrun _).trans (overrideAll_cons_error hb hx' back), hothers, ?_⟩
  have hcause : e.isAboutAttribute = true ∨ x.name = "__class__" := by
    rcases refusal?_cases hkind hx with ⟨hname, -⟩ | ⟨rfl, -⟩ | rfl
    · exact .inr hname
    · exact .inl rfl
    · exact .inl rfl
  -- The list of children is asked for when the failure is put into words, so it counts whether it
  -- was given anew.
  by_cases hnodes : ∃ y ∈ front, y.name = "nodes"
  · rcases refusal?_cases hkind hx with ⟨-, rfl⟩ | ⟨rfl, -⟩ | rfl
    · exact .inl ⟨rfl, hcause⟩
    · rcases m'.fault_readOnly (o.setAll front) s.content.nodeClass x.name with h | h <;> rw [h]
      · exact .inl ⟨rfl, hcause⟩
      · exact .inr ⟨rfl, hnodes⟩
    · exact .inl ⟨rfl, hcause⟩
  -- If it was not, it is a list still: the attributes that were set are those of the copy itself.
  · have hsame : m'.fault (o.setAll front) e = e := by
      refine fault_eq fun c name he hc => ?_
      have hcontainer : o.kind.isContainer = true := by
        rcases refusal?_cases hkind hx with ⟨-, h⟩ | ⟨h, -⟩ | h
        · cases he.symm.trans h
        · cases he.symm.trans h
          rw [hkind]
          exact hc
        · cases he.symm.trans h
      obtain ⟨l, y, hl, hget, hlist⟩ := hnode.exists_list hcontainer
      have hne : l ≠ b := by
        rintro rfl
        cases ho.symm.trans hget
        cases hkind.symm.trans hlist
      rw [hasList, attribute?_setAll fun y hy hname => hnodes ⟨y, hy, hname⟩, hl]
      show (m'.get? l).any (·.kind = .list) = true
      rw [hothers l hne, hget]
      exact decide_eq_true hlist
    rw [hsame]
    exact .inl ⟨rfl, hcause⟩

/-! ## Clones -/

/-- There are no more nodes than objects. -/
theorem Holds.size_le (h : m.Holds f place) : f.size ≤ m.size := by
  have hnodup : ((List.range f.size).map place).Nodup := by
    refine List.Nodup.map_on (fun j hj k hk heq => ?_) List.nodup_range
    exact h.injective j k (List.mem_range.1 hj) (List.mem_range.1 hk) heq
  have hsub : (List.range f.size).map place ⊆ List.range m.size := by
    intro a ha
    obtain ⟨j, hj, rfl⟩ := List.mem_map.1 ha
    exact List.mem_range.2 (h.lt_size (List.mem_range.1 hj))
  have hle := (hnodup.subperm hsub).length_le
  rwa [List.length_map, List.length_range, List.length_range] at hle

/-- The tree that is read below a node is the tree of the forest. -/
theorem Holds.tree?_eq (h : m.Holds f place) (hf : f.Consistent) (hi : i < f.size) :
    m.tree? (place i) = some (f.view i) := by
  have hdepth : f.size < m.size + 1 := Nat.lt_succ_of_le h.size_le
  have hends : f.EndsWithin (m.size + 1) i := fun l hl =>
    Nat.lt_of_lt_of_le (hf.endsWithin i l hl) (Nat.succ_le_succ h.size_le)
  rw [tree?, h.treeAt_eq hf _ i hends hi, hf.viewTo_eq_view hdepth]

/-- If an attribute cannot be set, nothing that was there changes. It is missing or read-only, or it
is the class; or it is computed from a list of children that was given anew. -/
theorem Holds.clone_refused (h : m.Holds f place) (hf : f.Consistent) (hi : i < f.size)
    (ho : m.get? (place i) = some o) {front back : List Override} {x : Override} {cause : CopyError}
    (hfront : ∀ y ∈ front, o.refusal? y.name = none) (hx : o.refusal? x.name = some cause) :
    ∃ fault e, (clone (place i) (front ++ x :: back)).run m = .error fault e ∧
      (∀ a < m.size, e.get? a = m.get? a) ∧
      ((fault = cause ∧ (fault.isAboutAttribute = true ∨ x.name = "__class__")) ∨
        (fault = .notComputed x.name ∧ ∃ y ∈ front, y.name = "nodes")) := by
  obtain ⟨t, g, -, hg⟩ := hf.clone_mirrors hi
  obtain ⟨place', m', hcopy, hcopied⟩ := h.exists_copyAlone hf hi hg
  obtain ⟨s', o', hs', ho', hnode'⟩ := hcopied.holds.exists_top (hg.fresh i (.inl rfl)).2
  have hrefusal (name : String) : o'.refusal? name = o.refusal? name :=
    (hcopied.alike i o o' (.inl rfl) ho ho').refusal?_eq name
  obtain ⟨fault, e, hrun, hothers, hcause⟩ := exists_overrideAll_error ho' hnode'
    (fun y hy => (hrefusal y.name).trans (hfront y hy)) ((hrefusal x.name).trans hx)
  refine ⟨fault, e, clone_error hcopy hrun, fun a ha => ?_, hcause⟩
  rw [hothers a (Nat.ne_of_lt (Nat.lt_of_lt_of_le ha (hcopied.fresh i (.inl rfl)))),
    hcopied.get?_eq a ha]

/-- A clone of a node is detached from everything that was there, which stays as it is, with the
parent of the node and the iterations that run. It is made of new objects, also for raws and what is
in them, mirrors the tree below the node and reads as that does. Whatever is done on either side, by
changes of the nodes or by any other writes to objects of that side, is not seen on the other. If
attributes are given anew, either the copy gets them all and nothing else changes, or the first that
cannot be set is what the action fails for, and what was there stays as it is. It fails as it does
for an attribute that is missing or read-only, unless it is the class of the copy that is to be set,
or an attribute is computed from a list of children that was given anew. -/
theorem Holds.clone_detached (h : m.Holds f place) (hf : f.Consistent) (hi : i < f.size) :
    ∃ t g place' m', (Forest.clone i []).run f = .ok (t i) g ∧
      (clone (place i) []).run m = .ok (place' (t i)) m' ∧ HasCopy m f place i t g m' place' ∧
      g.parentOf (t i) = none ∧ m'.attribute? (place' (t i)) "parent" = some (.atom .none) ∧
      (∀ semicolon, m.text? semicolon (place i) = some ((f.view i).text semicolon) ∧
        m'.text? semicolon (place' (t i)) = some ((f.view i).text semicolon)) ∧
      Forest.Detached f.size g ∧ Detached m.size m' ∧
      ∃ o o', m.get? (place i) = some o ∧ m'.get? (place' (t i)) = some o' ∧
        ∀ xs : List Override,
          ((∀ x ∈ xs, o.refusal? x.name = none) ∧ ∃ e,
            (clone (place i) xs).run m = .ok (place' (t i)) e ∧
            e.get? (place' (t i)) = some (o'.setAll xs) ∧
            ∀ a, a ≠ place' (t i) → e.get? a = m'.get? a) ∨
          ∃ front x back cause fault e, xs = front ++ x :: back ∧
            (∀ y ∈ front, o.refusal? y.name = none) ∧ o.refusal? x.name = some cause ∧
            (clone (place i) xs).run m = .error fault e ∧ (∀ a < m.size, e.get? a = m.get? a) ∧
            ((fault = cause ∧ (fault.isAboutAttribute = true ∨ x.name = "__class__")) ∨
              (fault = .notComputed x.name ∧ ∃ y ∈ front, y.name = "nodes")) := by
  -- The copy in the forest tells what the copy in memory is to be.
  obtain ⟨t, g, hforest, hg⟩ := hf.clone_mirrors hi
  obtain ⟨place', m', hcopy, hcopied⟩ := h.exists_copyAlone hf hi hg
  obtain ⟨s, o, hs, ho, hnode⟩ := h.exists_top hi
  have htop : t i < g.size := (hg.fresh i (.inl rfl)).2
  obtain ⟨s', o', hs', ho', hnode'⟩ := hcopied.holds.exists_top htop
  have hgf : g.Consistent := hf.clone hi hforest
  have hparent : s'.parent = none := by
    have hparent := hg.parentOf_top hi
    rwa [Forest.parentOf_of_get? hs'] at hparent
  -- Which attributes can be set is the same for the copy, as it has the same ones.
  have hrefusal (name : String) : o'.refusal? name = o.refusal? name :=
    (hcopied.alike i o o' (.inl rfl) ho ho').refusal?_eq name
  refine ⟨t, g, place', m', hforest, clone_ok hcopy rfl, hcopied, hg.parentOf_top hi, ?_,
    fun semicolon => ⟨?_, ?_⟩, (hg.apart hf hi).detached, hcopied.apart.detached
      hcopied.holds.closed, o, o', ho, ho', fun xs => ?_⟩
  · rw [attribute?, ho', Option.bind_some, hnode'.parent, hparent]
    rfl
  · rw [text?, h.tree?_eq hf hi, Option.map_some]
  · rw [text?, hcopied.holds.tree?_eq hgf htop, hg.view_eq hf hi, Option.map_some]
  -- Either all attributes can be set, or there is a first one that cannot.
  · rcases all_set_or o xs with hxs | ⟨front, x, back, cause, rfl, hfront, hx⟩
    · obtain ⟨e, hrun, hb, hothers⟩ := exists_overrideAll ho' fun x hx =>
        (hrefusal x.name).trans (hxs x hx)
      refine .inl ⟨hxs, e, clone_ok hcopy ?_, hb, hothers⟩
      rw [← List.append_nil xs, hrun]
      rfl
    · obtain ⟨fault, e, hfails⟩ := h.clone_refused hf hi ho hfront hx
      exact .inr ⟨front, x, back, cause, fault, e, rfl, hfront, hx, hfails⟩

/-- The sheet of two rules is copied while an iteration over it has come to the comment between
them, and then with an attribute that it has not. -/
theorem clone_detached_visitedRules :
    Holds (ofForest Forest.visitedRules) Forest.visitedRules placeOf ∧
      Forest.visitedRules.Consistent ∧ 0 < Forest.visitedRules.size ∧
      (∃ t g place' m', (clone (placeOf 0) []).run (ofForest Forest.visitedRules) =
          .ok (place' (t 0)) m' ∧
        HasCopy (ofForest Forest.visitedRules) Forest.visitedRules placeOf 0 t g m' place' ∧
        m'.text? false (place' (t 0)) = some ((Forest.visitedRules.view 0).text false) ∧
        Detached (ofForest Forest.visitedRules).size m') ∧
      ∃ e, (clone (placeOf 0) [⟨"text", .atom (.text "b"), by decide⟩]).run
        (ofForest Forest.visitedRules) = .error (.noAttribute .root "text") e := by
  have hholds := holds_visitedRules
  have hsize : 0 < Forest.visitedRules.size := by decide
  obtain ⟨t, g, place', m', -, hrun, hcopy, -, -, htext, -, hdetached, o, o', ho, -,
    hoverrides⟩ :=
    hholds.clone_detached Forest.consistent_visitedRules hsize
  refine ⟨hholds, Forest.consistent_visitedRules, hsize,
    ⟨t, g, place', m', hrun, hcopy, (htext false).2, hdetached⟩, ?_⟩
  obtain ⟨s, hs⟩ := Forest.get?_eq_some_of_lt hsize
  obtain rfl : objectAt 0 s 0 = o :=
    Option.some.inj ((get?_ofForest hs (r := 0) (by decide)).symm.trans ho)
  have hrefusal : (objectAt 0 s 0).refusal? "text" = some (.noAttribute .root "text") := by
    cases hs
    decide
  rcases hoverrides [⟨"text", .atom (.text "b"), by decide⟩] with
    ⟨hall, -⟩ | ⟨front, x, back, cause, fault, e, hsplit, -, hx, hfails, -, hcause⟩
  · cases hrefusal.symm.trans (hall _ List.mem_cons_self)
  · cases front with
    | nil =>
      obtain ⟨rfl, rfl⟩ := List.cons.inj hsplit
      cases hrefusal.symm.trans hx
      rcases hcause with ⟨rfl, -⟩ | ⟨-, y, hy, -⟩
      · exact ⟨e, hfails⟩
      · cases hy
    | cons y front => exact absurd hsplit (by simp)

/-- Another class cannot be given to a copy by a number, and what that fails with is not about an
attribute that is missing or read-only. -/
theorem not_isAboutAttribute_newClass :
    Holds (ofForest Forest.visitedRules) Forest.visitedRules placeOf ∧
      Forest.visitedRules.Consistent ∧ 1 < Forest.visitedRules.size ∧
      ∃ e, (clone (placeOf 1) [⟨"__class__", .atom (.int 5), by decide⟩]).run
          (ofForest Forest.visitedRules) = .error .notAClass e ∧
        CopyError.notAClass.isAboutAttribute = false := by
  have hsize : 1 < Forest.visitedRules.size := by decide
  obtain ⟨s, hs⟩ := Forest.get?_eq_some_of_lt hsize
  have ho : (ofForest Forest.visitedRules).get? (placeOf 1) = some (objectAt 1 s 0) :=
    get?_ofForest hs (r := 0) (by decide)
  let newClass : Override := ⟨"__class__", .atom (.int 5), by decide⟩
  have hrefused : (objectAt 1 s 0).refusal? newClass.name = some .notAClass := rfl
  obtain ⟨fault, e, hfails, -, hcause⟩ := @Holds.clone_refused _ _ _ _ _ holds_visitedRules
    Forest.consistent_visitedRules hsize ho [] [] newClass _ (List.forall_mem_nil _) hrefused
  rcases hcause with ⟨rfl, -⟩ | ⟨-, y, hy, -⟩
  · exact ⟨holds_visitedRules, Forest.consistent_visitedRules, hsize, e, hfails, rfl⟩
  · cases hy

end PixelUnit.Memory
