import PixelUnit.Proofs.Forest.Planted
import PixelUnit.Proofs.Transform.Gates
import PixelUnit.Transform.Basic

/-!
# Converting in place

What the transform does to a forest when it replaces values: each declaration below the root that
no gate keeps back gets its converted value, and nothing else changes. The gates may be asked of the
forest as it was at the start, since they do not see values (`SameButValues.gateOf`), so the order
of the visits does not matter.

`Forest.convertedAt` is the forest with one declaration converted and `Forest.convertedIn` the
forest with all of a list converted, as they were at the start; a visit leads from one such forest
to the next (`visitDeclaration_apply`, `plain_convertedAt`).
-/

namespace PixelUnit

open Sheet

namespace Forest

variable {f g : Forest} {s : Settings} {file : Option String} {i : NodeId}

/-- A content with its value converted, if no gate keeps it as it is. -/
def convertedContent (f : Forest) (s : Settings) (file : Option String) (i : NodeId) :
    Content → Content
  | .declaration prop value important =>
    if f.gateOf s i prop value file = none then .declaration prop (s.convert value) important
    else .declaration prop value important
  | c => c

/-- The forest with the value of one declaration converted. -/
def convertedAt (f : Forest) (s : Settings) (file : Option String) (i : NodeId) : Forest :=
  f.update i fun t => { t with content := f.convertedContent s file i t.content }

/-- Whether a node changes when it is converted. -/
def changesAt (f : Forest) (s : Settings) (file : Option String) (i : NodeId) : Bool :=
  (f.contentOf i).map (f.convertedContent s file i) != f.contentOf i

theorem convertedAt_of_changesAt_eq_false (h : f.changesAt s file i = false) :
    f.convertedAt s file i = f := by
  unfold changesAt at h
  rw [bne_eq_false_iff_eq] at h
  refine ext_get? fun j => ?_
  unfold convertedAt
  rw [get?_update]
  split
  · next hij =>
    subst hij
    unfold contentOf at h
    cases hi : f.get? i with
    | none => rfl
    | some t =>
      rw [hi] at h
      have hcontent : f.convertedContent s file i t.content = t.content := Option.some.inj h
      rw [Option.map_some, hcontent]
  · rfl

/-- What changes is a declaration that no gate keeps and whose value has something to convert. -/
theorem changesAt_declaration (s : Settings) (file : Option String) {prop value : String}
    {important : Bool}
    (hc : f.contentOf i = some (.declaration prop value important)) :
    f.changesAt s file i =
      (f.gateOf s i prop value file == none && s.convert value != value) := by
  unfold changesAt
  rw [hc, Option.map_some, convertedContent, Bool.eq_iff_iff, Bool.and_eq_true, beq_iff_eq,
    bne_iff_ne, bne_iff_ne]
  split <;> simp [*]

theorem changesAt_of_not_declaration (s : Settings) (file : Option String)
    (hc : ∀ prop value important, f.contentOf i ≠ some (.declaration prop value important)) :
    f.changesAt s file i = false := by
  unfold changesAt
  rw [bne_eq_false_iff_eq]
  cases h : f.contentOf i with
  | none => rfl
  | some c =>
    cases c with
    | declaration prop value important => exact absurd h (hc prop value important)
    | root | rule | atRule | comment => rfl

/-- Setting the converted value is converting. -/
theorem update_set_value {prop value : String} {important : Bool}
    (hc : f.contentOf i = some (.declaration prop value important))
    (hgate : f.gateOf s i prop value file = none) :
    f.update i (·.set (.value (s.convert value))) = f.convertedAt s file i := by
  refine ext_get? fun j => ?_
  unfold convertedAt
  rw [get?_update, get?_update]
  split
  · next hij =>
    subst hij
    refine Option.map_congr fun t ht => ?_
    have hcontent : t.content = .declaration prop value important :=
      Option.some.inj ((contentOf_of_get? ht).symm.trans hc)
    have hset : (Attribute.value (s.convert value)).setIn? t.content =
        some (.declaration prop (s.convert value) important) := by
      rw [hcontent]
      rfl
    rw [hcontent, convertedContent, if_pos hgate, Slot.set, Slot.set?_of_setIn? hset]
    rfl
  · rfl

/-- A visit leaves everything as it is where nothing changes. -/
theorem visitDeclaration_of_changesAt_eq_false (hi : f.Listed i)
    (h : f.changesAt s file i = false) (index : Int) (log : Log) :
    ∃ log', visitDeclaration s file i index log f = .ok (false, log') f := by
  unfold visitDeclaration
  rw [Walk.getThe_bind_apply]
  cases hc : f.contentOf i with
  | none => exact ⟨log, rfl⟩
  | some c =>
    cases c with
    | root | rule | atRule | comment => exact ⟨log, rfl⟩
    | declaration prop value important =>
      rw [changesAt_declaration s file hc] at h
      dsimp only
      rw [Walk.lift_bind_ok (skippedBy_apply hi)]
      cases hgate : f.gateOf s i prop value file with
      | some gate =>
        dsimp only
        split
        · exact ⟨_, rfl⟩
        · exact ⟨_, rfl⟩
      | none =>
        rw [hgate, beq_self_eq_true, Bool.true_and, bne_eq_false_iff_eq] at h
        simp only [h, beq_self_eq_true, if_true]
        exact ⟨_, rfl⟩

theorem exists_declaration_of_changesAt (h : f.changesAt s file i = true) :
    ∃ prop value important, f.contentOf i = some (.declaration prop value important) ∧
      f.gateOf s i prop value file = none ∧ s.convert value ≠ value := by
  by_cases hdecl : ∃ prop value important, f.contentOf i = some (.declaration prop value important)
  · obtain ⟨prop, value, important, hc⟩ := hdecl
    rw [changesAt_declaration s file hc, Bool.and_eq_true, beq_iff_eq, bne_iff_ne] at h
    exact ⟨prop, value, important, hc, h⟩
  · rw [changesAt_of_not_declaration s file fun prop value important hc =>
      hdecl ⟨prop, value, important, hc⟩] at h
    cases h

/-- A visit converts the declaration it is made at, unless a gate keeps it, and tells whether it
changed. -/
theorem visitDeclaration_apply (file : Option String) (hs : s.replaces = true) (hi : f.Listed i)
    (index : Int) (log : Log) :
    ∃ log', visitDeclaration s file i index log f =
      .ok (f.changesAt s file i, log') (f.convertedAt s file i) := by
  cases hchanges : f.changesAt s file i with
  | false =>
    rw [convertedAt_of_changesAt_eq_false hchanges]
    exact visitDeclaration_of_changesAt_eq_false hi hchanges index log
  | true =>
    obtain ⟨prop, value, important, hc, hgate, hvalue⟩ := exists_declaration_of_changesAt hchanges
    unfold visitDeclaration
    rw [Walk.getThe_bind_apply, hc]
    dsimp only
    rw [Walk.lift_bind_ok (skippedBy_apply hi), hgate, ← update_set_value hc hgate]
    simp only [beq_eq_false_iff_ne.2 hvalue, hs, if_true, Bool.false_eq_true, if_false]
    exact ⟨_, rfl⟩

/-! ## Many declarations -/

/-- The forest, but for bookkeeping, with the declarations among `done` converted as the gates
answered at the start. -/
def convertedIn (f : Forest) (s : Settings) (file : Option String) (done : List NodeId) : Forest :=
  ⟨f.slots.mapIdx fun i t =>
    { t.plain with
      content := if i ∈ done then f.convertedContent s file i t.content else t.content }⟩

theorem get?_convertedIn (f : Forest) (s : Settings) (file : Option String) (done : List NodeId)
    (i : NodeId) :
    (f.convertedIn s file done).get? i = (f.get? i).map fun t =>
      { t.plain with
        content := if i ∈ done then f.convertedContent s file i t.content else t.content } :=
  Array.getElem?_mapIdx ..

theorem convertedIn_nil (f : Forest) (s : Settings) (file : Option String) :
    f.convertedIn s file [] = f.plain := by
  refine ext_get? fun i => ?_
  rw [get?_convertedIn, get?_plain]
  rfl

theorem outline_convertedContent (c : Content) :
    (f.convertedContent s file i c).outline = c.outline := by
  cases c with
  | declaration prop value important =>
    rw [convertedContent]
    split <;> rfl
  | root | rule | atRule | comment => rfl

variable {done : List NodeId}

theorem sameButValues_of_plain (h : g.plain = f.convertedIn s file done) : SameButValues f g := by
  intro j
  have hj := congrArg (Option.map Slot.outline) (congrArg (·.get? j) h)
  simp only [get?_plain, get?_convertedIn, Option.map_map] at hj
  refine hj.trans (Option.map_congr fun t _ => ?_)
  show (t.parent, t.children, Content.outline (if _ then _ else _)) = _
  split
  · rw [outline_convertedContent]
    rfl
  · rfl

theorem contentOf_of_plain (h : g.plain = f.convertedIn s file done) (i : NodeId) :
    g.contentOf i = if i ∈ done then (f.contentOf i).map (f.convertedContent s file i)
      else f.contentOf i := by
  have hi := congrArg (Option.map Slot.content) (congrArg (·.get? i) h)
  simp only [get?_plain, get?_convertedIn, Option.map_map] at hi
  unfold contentOf
  refine Eq.trans hi ?_
  split
  · rw [Option.map_map]
    rfl
  · rfl

theorem convertedContent_of_plain (h : g.plain = f.convertedIn s file done) (c : Content) :
    g.convertedContent s file i c = f.convertedContent s file i c := by
  cases c with
  | declaration prop value important =>
    rw [convertedContent, convertedContent, (sameButValues_of_plain h).gateOf]
  | root | rule | atRule | comment => rfl

theorem changesAt_of_plain (h : g.plain = f.convertedIn s file done) (hi : i ∉ done) :
    g.changesAt s file i = f.changesAt s file i := by
  unfold changesAt
  rw [contentOf_of_plain h, if_neg hi, funext (convertedContent_of_plain h)]

/-- Converting one more declaration. -/
theorem plain_convertedAt (h : g.plain = f.convertedIn s file done) (hi : i ∉ done) :
    (g.convertedAt s file i).plain = f.convertedIn s file (done ++ [i]) := by
  refine ext_get? fun j => ?_
  have hj := congrArg (·.get? j) h
  simp only [get?_plain, get?_convertedIn] at hj
  rw [get?_plain, get?_convertedIn, convertedAt, get?_update]
  by_cases hij : i = j
  · subst hij
    have hmem : i ∈ done ++ [i] := List.mem_append_right _ List.mem_cons_self
    rw [if_pos rfl]
    simp only [hmem, hi, if_true, if_false] at hj ⊢
    cases hg : g.get? i with
    | none =>
      cases hf : f.get? i with
      | none => rfl
      | some t =>
        rw [hg, hf] at hj
        cases hj
    | some t' =>
      cases hf : f.get? i with
      | none =>
        rw [hg, hf] at hj
        cases hj
      | some t =>
        rw [hg, hf] at hj
        have hplain : t'.plain = t.plain := Option.some.inj hj
        refine congrArg some ?_
        show { t'.plain with content := g.convertedContent s file i t'.plain.content } = _
        rw [hplain, convertedContent_of_plain h]
        rfl
  · have hmem : j ∈ done ++ [i] ↔ j ∈ done := by
      rw [List.mem_append, List.mem_singleton, or_iff_left (Ne.symm hij)]
    rw [if_neg hij, hj]
    simp only [hmem]

/-- Converting keeps every node in its place. -/
theorem kept_convertedAt (f : Forest) (s : Settings) (file : Option String) (i : NodeId) :
    Kept f (f.convertedAt s file i) := by
  have hcontainer : ∀ c : Content,
      (f.convertedContent s file i c).isContainer = c.isContainer := by
    intro c
    rw [← Content.isContainer_outline, outline_convertedContent, Content.isContainer_outline]
  intro j
  unfold convertedAt
  rw [get?_update]
  split
  · cases f.get? j with
    | none => exact .none
    | some t => exact .some ⟨by unfold Slot.shape; rw [hcontainer], rfl, Nat.le_refl _⟩
  · exact Kept.refl f j

/-! ## All declarations -/

/-- The visit of the transform, which counts the declarations that it converted. -/
def countingVisit (s : Settings) (file : Option String) : Visit (Nat × Log) :=
  fun i index (count, log) => do
    let (done, log) ← (visitDeclaration s file i index).run log
    return (.proceed, (if done then count + 1 else count, log))

theorem visitBelow_eq (s : Settings) (file : Option String) (filter : PropFilter) (c : NodeId) :
    visitBelow s file filter c f =
      (walk f.transformBound (onDeclarations filter (countingVisit s file)) (f.size + 1) c).run
        (0, []) f :=
  rfl

/-- The visit of the transform counts what the visit of a declaration converted. -/
theorem countingVisit_of_ok {b : Bool} {index : Int} {log log' : Log} (count : Nat)
    (h : visitDeclaration s file i index log f = .ok (b, log') g) :
    countingVisit s file i index (count, log) f =
      .ok (.proceed, (count + (if b then 1 else 0), log')) g := by
  refine (Edit.bind_ok h _).trans ?_
  cases b <;> rfl

/-- Visiting only declarations makes no difference: other nodes do not change. -/
theorem onDeclarations_countingVisit_of_ok {b : Bool} {index : Int} {log log' : Log} (count : Nat)
    (h : visitDeclaration s file i index log f = .ok (b, log') g) :
    onDeclarations .all (countingVisit s file) i index (count, log) f =
      .ok (.proceed, (count + (if b then 1 else 0), log')) g := by
  unfold onDeclarations
  rw [Walk.getThe_bind_apply]
  cases hc : f.contentOf i with
  | none =>
    unfold visitDeclaration at h
    rw [Walk.getThe_bind_apply, hc] at h
    cases h
    rfl
  | some c =>
    cases c with
    | declaration prop value important => exact countingVisit_of_ok count h
    | root | rule | atRule | comment =>
      unfold visitDeclaration at h
      rw [Walk.getThe_bind_apply, hc] at h
      cases h
      rfl

/-- What is known once the declarations among `done` were visited. -/
def Converted (f : Forest) (s : Settings) (file : Option String) (done : List NodeId)
    (state : Nat × Log) (h : Forest) : Prop :=
  h = f.convertedIn s file done ∧ state.1 = done.countP (f.changesAt s file)

/-- One more declaration visited. -/
theorem Converted.concat {count : Nat} {log log' : Log}
    (h : f.Converted s file done (count, log) g.plain) (hi : i ∉ done) :
    f.Converted s file (done ++ [i])
      (count + (if g.changesAt s file i then 1 else 0), log') (g.convertedAt s file i).plain := by
  obtain ⟨hplain, hcount⟩ := h
  refine ⟨plain_convertedAt hplain hi, ?_⟩
  show count + _ = _
  rw [show count = _ from hcount, changesAt_of_plain hplain hi, List.countP_append,
    List.countP_singleton]

theorem Consistent.listed_of_sameShape (hf : f.Consistent) (hfg : SameShape f g) (i : NodeId) :
    g.Listed i := by
  intro p hp
  rw [hfg.childrenOf]
  rw [hfg.parentOf] at hp
  exact hf.listed i p hp

theorem Consistent.handsOnBelow (hf : f.Consistent) (file : Option String) (hs : s.replaces = true)
    {visits : List (NodeId × Nat)} (hnodup : (visits.map Prod.fst).Nodup) :
    HandsOnBelow f (onDeclarations .all (countingVisit s file)) visits
      (fun done => f.Converted s file (done.map Prod.fst)) (fun _ _ => False)
      (fun _ _ => False) := by
  rintro done i n hpre ⟨count, log⟩ g hshape _ hdone
  obtain ⟨log', hvisit⟩ := visitDeclaration_apply file hs (hf.listed_of_sameShape hshape i) n log
  have hrun := onDeclarations_countingVisit_of_ok count hvisit
  have hi : i ∉ done.map Prod.fst := by
    have hsub := hnodup.sublist (hpre.sublist.map Prod.fst)
    rw [List.map_append, List.map_singleton, List.nodup_append] at hsub
    exact fun hmem => hsub.2.2 i hmem i List.mem_cons_self rfl
  refine .returns hrun (kept_convertedAt g s file i) ?_
  show f.Converted s file ((done ++ [(i, n)]).map Prod.fst) _ _
  rw [List.map_append]
  exact hdone.concat hi

/-- The transform comes to its end, and has converted all declarations below the root. -/
theorem Consistent.transform_apply (hf : f.Consistent) (hs : s.replaces = true) {root : NodeId}
    (hroot : root < f.size) :
    ∃ count log g, transform s root f = .ok (count, log) g ∧ Kept f g ∧
      f.Converted s (f.fileOf root) ((f.visitsOf root).map Prod.fst) (count, log) g.plain := by
  have hbound : f.size < f.transformBound := by
    unfold transformBound
    omega
  have hstart : f.Converted s (f.fileOf root) [] (0, []) f.plain :=
    ⟨(convertedIn_nil f s _).symm, rfl⟩
  have hends := hf.walk_visitsOf hbound (Nat.lt_succ_self f.size) hroot
    (hf.handsOnBelow (f.fileOf root) hs (hf.nodup_visitsOf root)) hstart
  obtain @⟨b, ⟨count, log⟩, g, hrun, hkept, hend⟩ | ⟨-, -, hE⟩ := hends
  case fails => exact hE.elim
  have hbelow : visitBelow s (f.fileOf root) .all root f = .ok (b, count, log) g := by
    rw [visitBelow_eq]
    exact hrun
  refine ⟨count, log, g, ?_, hkept, ?_⟩
  · unfold transform
    rw [Edit.get_bind_apply, Edit.bind_ok hbelow]
    rfl
  · cases b with
    | true => exact hend
    | false => exact hend.elim

/-! ## One tree -/

theorem ofTree_holds (t : Tree) :
    (ofTree t).1 = 0 ∧ (ofTree t).2.size = t.size ∧ (ofTree t).2.Holds none 0 t := by
  obtain ⟨hroot, hgrown, hholds⟩ := plant_holds t {} none
  have hempty : ({} : Forest).size = 0 := rfl
  exact ⟨hroot, by rw [← Nat.zero_add t.size]; exact hgrown.size_eq, hholds⟩

theorem consistent_ofTree {t : Tree} (h : t.All Tree.Branches) : (ofTree t).2.Consistent :=
  consistent_plant h

theorem view_ofTree (t : Tree) : (ofTree t).2.view (ofTree t).1 = t := by
  obtain ⟨hroot, hsize, hholds⟩ := ofTree_holds t
  rw [hroot]
  refine hholds.viewTo_eq ?_
  rw [hsize]
  exact Nat.le_succ _

/-! ## In any order -/

/-- Makes visits in a given order. -/
def visitInOrder {σ : Type} (visit : Visit σ) : List (NodeId × Int) → Walk σ Unit
  | [] => return ()
  | (i, index) :: rest => do
    let _ ← visit i index
    visitInOrder visit rest

theorem Consistent.visitInOrder_apply (hf : f.Consistent) (file : Option String)
    (hs : s.replaces = true) :
    ∀ (order : List (NodeId × Int)) (done : List NodeId) (count : Nat) (log : Log) (g : Forest),
      (done ++ order.map Prod.fst).Nodup → SameShape f g →
      f.Converted s file done (count, log) g.plain →
      ∃ count' log' g', visitInOrder (countingVisit s file) order (count, log) g =
        .ok ((), (count', log')) g' ∧
        f.Converted s file (done ++ order.map Prod.fst) (count', log') g'.plain
  | [], done, count, log, g, _, _, hdone => by
    rw [List.map_nil, List.append_nil]
    exact ⟨count, log, g, rfl, hdone⟩
  | (i, index) :: rest, done, count, log, g, hnodup, hshape, hdone => by
    rw [List.map_cons, List.append_cons] at hnodup ⊢
    have hi : i ∉ done := by
      have hsub := (List.nodup_append.1 hnodup).1
      exact fun hmem => (List.nodup_append.1 hsub).2.2 i hmem i List.mem_cons_self rfl
    obtain ⟨log', hvisit⟩ := visitDeclaration_apply file hs
      (hf.listed_of_sameShape hshape i) index log
    unfold visitInOrder
    rw [Walk.bind_ok (countingVisit_of_ok count hvisit)]
    exact hf.visitInOrder_apply file hs rest (done ++ [i]) _ log' _ hnodup
      (hshape.trans (kept_convertedAt g s file i).sameShape) (hdone.concat hi)

theorem changesAt_eq_false (s : Settings) (file : Option String)
    (h : ¬f.isDeclaration i = true) : f.changesAt s file i = false :=
  changesAt_of_not_declaration s file fun prop value important hc =>
    h (isDeclaration_iff.2 ⟨prop, value, important, hc⟩)

/-- Only the declarations of a list matter. -/
theorem convertedIn_congr {done done' : List NodeId}
    (h : ∀ i, f.isDeclaration i = true → (i ∈ done ↔ i ∈ done')) :
    f.convertedIn s file done = f.convertedIn s file done' := by
  refine ext_get? fun i => ?_
  rw [get?_convertedIn, get?_convertedIn]
  refine Option.map_congr fun t ht => ?_
  by_cases hdecl : f.isDeclaration i = true
  · simp only [h i hdecl]
  · have hsame : f.convertedContent s file i t.content = t.content := by
      have hfalse := changesAt_eq_false s file hdecl
      unfold changesAt contentOf at hfalse
      rw [bne_eq_false_iff_eq, ht] at hfalse
      exact Option.some.inj hfalse
    rw [hsame, ite_self, ite_self]

/-- The nodes that change are the declarations of the list that change when they are converted. -/
theorem contentOf_ne_iff (h : g.plain = f.convertedIn s file done) (i : NodeId) :
    (g.contentOf i != f.contentOf i) = (decide (i ∈ done) && f.changesAt s file i) := by
  rw [contentOf_of_plain h]
  by_cases hi : i ∈ done
  · rw [if_pos hi, decide_eq_true hi, Bool.true_and]
    rfl
  · rw [if_neg hi, decide_eq_false hi, Bool.false_and]
    exact bne_self_eq_false _

/-- The count is the number of nodes that changed. -/
theorem Converted.count_eq {count : Nat} {log : Log}
    (h : f.Converted s file done (count, log) g.plain) (hnodup : done.Nodup) :
    count = (List.range f.size).countP fun i => g.contentOf i != f.contentOf i := by
  have hchanged : (fun i => g.contentOf i != f.contentOf i) =
      fun i => decide (i ∈ done) && f.changesAt s file i := funext (contentOf_ne_iff h.1)
  rw [show count = _ from h.2, hchanged, List.countP_eq_length_filter, List.countP_eq_length_filter]
  refine List.Perm.length_eq ?_
  rw [List.perm_ext_iff_of_nodup (hnodup.filter _) (List.nodup_range.filter _)]
  intro i
  rw [List.mem_filter, List.mem_filter, Bool.and_eq_true, decide_eq_true_iff]
  constructor
  · rintro ⟨hi, hchanges⟩
    refine ⟨List.mem_range.2 ?_, hi, hchanges⟩
    by_contra hsize
    have hnone : f.get? i = none := Array.getElem?_eq_none (Nat.le_of_not_lt hsize)
    unfold changesAt contentOf at hchanges
    rw [hnone] at hchanges
    cases hchanges
  · exact fun h => h.2

/-! ## The tree after the transform -/

/-- Nodes of `g` differ from those of `f` at most in what they say: their raws, parents, children
and running iterations are the same, and keys of iterations are only ever given out. -/
def SameButContents (f g : Forest) : Prop :=
  ∀ i, Option.Rel (fun a b => b = { a with content := b.content, lastKey := b.lastKey } ∧
    a.lastKey ≤ b.lastKey) (f.get? i) (g.get? i)

theorem SameButContents.of_kept (hkept : Kept f g) (h : g.plain = f.convertedIn s file done) :
    SameButContents f g := by
  refine hkept.rel fun {i a b} ha hb hcursors hkey => ⟨?_, hkey⟩
  have hi := congrArg (·.get? i) h
  simp only [get?_plain, get?_convertedIn, ha, hb, Option.map_some] at hi
  have heq := Slot.eq_of_plain (Option.some.inj hi) hcursors
  exact heq.trans (by rw [congrArg Slot.content heq])

/-- The forest `g` is `f` with the declarations below a root converted, as the gates answer on
`f`. -/
structure ReplacedBelow (s : Settings) (file : Option String) (root : NodeId) (f g : Forest) :
    Prop where
  sameButContents : SameButContents f g
  contentOf_declaration : ∀ i prop value important, f.IsBelow i root →
    f.contentOf i = some (.declaration prop value important) →
    ∃ gate, (skippedBy s i prop value file).run f = .ok gate f ∧
      g.contentOf i = some (.declaration prop
        (if gate = none then s.convert value else value) important)
  contentOf_other : ∀ i, ¬(f.IsBelow i root ∧ f.isDeclaration i = true) →
    g.contentOf i = f.contentOf i

theorem Consistent.replacedBelow (hf : f.Consistent) {root : NodeId} (hkept : Kept f g)
    (hplain : g.plain = f.convertedIn s file done)
    (hdone : ∀ i, i ∈ done ↔ f.IsBelow i root) : ReplacedBelow s file root f g where
  sameButContents := SameButContents.of_kept hkept hplain
  contentOf_declaration := by
    intro i prop value important hbelow hc
    refine ⟨f.gateOf s i prop value file, skippedBy_apply (hf.listed i), ?_⟩
    rw [contentOf_of_plain hplain, if_pos ((hdone i).2 hbelow), hc, Option.map_some,
      convertedContent]
    split <;> rfl
  contentOf_other := by
    intro i hnot
    rw [contentOf_of_plain hplain]
    split
    · next hi =>
      have hfalse := changesAt_eq_false s file
        fun hdecl => hnot ⟨(hdone i).1 hi, hdecl⟩
      unfold changesAt at hfalse
      exact bne_eq_false_iff_eq.1 hfalse
    · rfl

/-- Replacing values, the transform comes to its end; the declarations below the root are converted
then, unless a gate, asked before the run, keeps them as they are, and nothing else has changed. The
count is the number of declarations whose values changed. Visits of the declarations in any other
order lead to the same. -/
theorem transform_of_replaces (hf : f.Consistent) {root : NodeId}
    (hroot : f.contentOf root = some (.root file)) (hs : s.replaces = true) :
    ∃ count log g, (transform s root).run f = .ok (count, log) g ∧
      ReplacedBelow s file root f g ∧
      count = (List.range f.size).countP (fun i => g.contentOf i != f.contentOf i) ∧
      ∀ order : List (NodeId × Int), (order.map Prod.fst).Nodup →
        (∀ i, i ∈ order.map Prod.fst ↔ f.IsBelow i root ∧ f.isDeclaration i = true) →
        ∃ log' g', (visitInOrder (countingVisit s file) order).run (0, []) f =
          .ok ((), (count, log')) g' ∧ g'.plain = g.plain := by
  have hsize : root < f.size := by
    obtain ⟨t, ht, -⟩ := Option.map_eq_some_iff.1 hroot
    exact lt_size_of_get? ht
  obtain ⟨count, log, g, hrun, hkept, hconverted⟩ := hf.transform_apply hs hsize
  rw [fileOf_eq hroot] at hconverted
  have hcount := hconverted.count_eq (hf.nodup_visitsOf root)
  refine ⟨count, log, g, hrun, hf.replacedBelow hkept hconverted.1 (hf.mem_visitsOf_iff root),
    hcount, fun order hnodup horder => ?_⟩
  obtain ⟨count', log', g', hrun', hconverted'⟩ := hf.visitInOrder_apply file hs order [] 0
    [] f hnodup (SameShape.refl f) ⟨(convertedIn_nil f s file).symm, rfl⟩
  have hplain : g'.plain = g.plain := by
    rw [hconverted'.1, hconverted.1]
    refine convertedIn_congr fun i hdecl => ?_
    rw [List.nil_append, horder i, hf.mem_visitsOf_iff]
    exact and_iff_left hdecl
  have hcount' : count' = count := by
    rw [hcount, hconverted'.count_eq hnodup]
    refine List.countP_congr fun i _ => ?_
    rw [← contentOf_plain g', hplain, contentOf_plain]
  exact ⟨log', g', hcount' ▸ hrun', hplain⟩

/-- A rule with a declaration that a comment keeps as it is, and one with a length in a rule inside
an at-rule. -/
def nestedTree : Tree :=
  .node (.root (some "a.css")) {}
    [.node (.rule "a") {}
      [.node (.declaration "top" "1px" false) {} [], .node (.comment "keep") {} []],
     .node (.atRule "media" "print" true) {}
      [.node (.rule "b") {} [.node (.declaration "margin" "0 2px" true) {} []]]]

def nestedSettings : Settings :=
  { pathPattern := some ⟨"css", {}, .char 's' .exact⟩, variableName := "--u",
    ignoreMark := .text "keep" }

theorem transform_nestedTree : (ofTree nestedTree).2.Consistent ∧
    (ofTree nestedTree).2.contentOf 0 = some (.root (some "a.css")) ∧
    nestedSettings.replaces = true ∧
    ∃ log g, (transform nestedSettings 0).run (ofTree nestedTree).2 = .ok (1, log) g ∧
      ReplacedBelow nestedSettings (some "a.css") 0 (ofTree nestedTree).2 g := by
  have hconsistent : (ofTree nestedTree).2.Consistent := by
    refine consistent_ofTree ?_
    simp [nestedTree, Tree.All, Tree.AllOf, Tree.Branches, Content.isContainer]
  obtain ⟨count, log, g, hrun, hreplaced, -⟩ :=
    @transform_of_replaces _ nestedSettings (some "a.css") hconsistent 0 rfl rfl
  have hcount : (Edit.result? (transform nestedSettings 0) (ofTree nestedTree).2).map (·.1) =
      some 1 := by
    decide +kernel
  rw [Edit.result?_ok hrun] at hcount
  obtain rfl : count = 1 := Option.some.inj hcount
  exact ⟨hconsistent, rfl, rfl, log, g, hrun, hreplaced⟩

end Forest

end PixelUnit
