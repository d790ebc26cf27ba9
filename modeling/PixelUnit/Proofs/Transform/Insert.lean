import Mathlib.Data.List.Find
import PixelUnit.Proofs.Forest.Copies
import PixelUnit.Proofs.Forest.Growing
import PixelUnit.Proofs.Transform.Again

/-!
# Inserting converted copies

What the transform does to a forest when it does not replace values: behind each declaration below
the root that can be converted it puts a copy with the converted value. The copies are visited as
well, but they name the custom property and stay as they are, and no gate of another declaration
sees them (`Forest.WithCopies.changesAt_eq`).

So every run of the transform does the same again: after `k` runs there are `k` copies behind each
of these declarations (`Forest.transformTimes_of_inserts`).
-/

namespace PixelUnit

open Sheet

/-- A content with its value converted. -/
def Settings.convertContent (s : Settings) : Content → Content
  | .declaration prop value important => .declaration prop (s.convert value) important
  | c => c

namespace Forest

variable {f g h : Forest} {s : Settings} {file : Option String} {copies : NodeId → List NodeId}
  {c d i j p : NodeId}

/-! ## Gates and copies -/

theorem idxOf?_append_cons {before rest : List NodeId} (hi : i ∉ before) :
    (before ++ i :: rest).idxOf? i = some before.length := by
  induction before with
  | nil =>
    rw [List.nil_append, List.idxOf?_cons, beq_self_eq_true]
    rfl
  | cons b before ih =>
    rw [List.mem_cons, not_or] at hi
    rw [List.cons_append, List.idxOf?_cons, beq_eq_false_iff_ne.2 (Ne.symm hi.1), ih hi.2]
    rfl

/-- The node behind a node is the first of those behind it among the children of its parent. -/
theorem nextOf_eq_head? {before rest : List NodeId} (hp : f.parentOf i = some p)
    (hchildren : f.childrenOf p = before ++ i :: rest) (hi : i ∉ before) :
    f.nextOf i = rest.head? := by
  unfold nextOf
  rw [hp, Option.bind_some, hchildren, idxOf?_append_cons hi, Option.bind_some,
    List.getElem?_append_right (Nat.le_succ _), Nat.succ_sub (Nat.le_refl _), Nat.sub_self,
    List.getElem?_cons_succ, List.head?_eq_getElem?]

namespace WithCopies

variable {twin : Content → Content}

/-- Copies do not change the selectors of old nodes. -/
theorem selectorOf_old (hf : f.Consistent) (hg : WithCopies f twin copies g) (hd : d < f.size) :
    g.selectorOf d = f.selectorOf d := by
  have hcontent : (g.parentOf d).bind g.contentOf = (f.parentOf d).bind f.contentOf := by
    rw [hg.parentOf_old hd]
    cases hp : f.parentOf d with
    | none => rfl
    | some p => exact hg.contentOf_old (hf.lt_size_of_hangsFrom hp).2
  unfold selectorOf
  rw [hcontent]

/-- What stands behind a node that was there: its first copy, or what stood behind it before. -/
theorem next_content (hf : f.Consistent) (hg : WithCopies f twin copies g) (hd : d < f.size) :
    (g.nextOf d).bind g.contentOf =
      if copies d = [] ∨ f.parentOf d = none then (f.nextOf d).bind f.contentOf
      else (f.contentOf d).map twin := by
  cases hp : f.parentOf d with
  | none =>
    unfold nextOf
    rw [hg.parentOf_old hd, hp, if_pos (Or.inr rfl)]
    rfl
  | some p =>
    obtain ⟨before, rest, hsplit, hbefore⟩ :=
      List.eq_append_cons_of_mem ((hf.mem_childrenOf_iff d p).2 hp)
    have hchildren : g.childrenOf p =
        withCopies copies before ++ d :: (copies d ++ withCopies copies rest) := by
      rw [hg.childrenOf_old (hf.lt_size_of_hangsFrom hp).2, hsplit, withCopies_append,
        withCopies_cons]
    have hfront : d ∉ withCopies copies before := fun hmem =>
      hbefore ((hg.mem_withCopies_iff_of_lt hd).1 hmem)
    rw [nextOf_eq_head? hp hsplit hbefore,
      nextOf_eq_head? ((hg.parentOf_old hd).trans hp) hchildren hfront]
    cases hcopies : copies d with
    | nil =>
      rw [if_pos (Or.inl rfl)]
      cases rest with
      | nil => rfl
      | cons e rest =>
        refine hg.contentOf_old (lt_size_of_parentOf (c := p) ?_)
        rw [← hf.mem_childrenOf_iff, hsplit]
        simp
    | cons j js =>
      rw [if_neg (by simp)]
      exact hg.contentOf_copy (by rw [hcopies]; exact List.mem_cons_self)

variable {prop value : String} {important : Bool}

/-- Gates answer the same when copies stand behind nodes, if there are none behind nodes that a gate
keeps as they are. -/
theorem shuts_eq (hf : f.Consistent) (hg : WithCopies f s.convertContent copies g)
    (hd : d < f.size) (hc : f.contentOf d = some (.declaration prop value important))
    (hcopies : copies d ≠ [] → f.gateOf s d prop value file = none) {gate : Gate}
    (hgate : gate ∈ s.gates) :
    g.shuts s d prop value file gate = f.shuts s d prop value file gate := by
  cases gate with
  | path | unit | variableName | prop => rfl
  | selector =>
    unfold shuts
    rw [hg.selectorOf_old hf hd]
  | ignore =>
    have hnext := hg.next_content hf hd
    by_cases hnone : copies d = [] ∨ f.parentOf d = none
    · unfold shuts
      rw [hnext, if_pos hnone]
    · have hopen := List.find?_eq_none.1 (hcopies fun h => hnone (Or.inl h)) _ hgate
      rw [Bool.not_eq_true] at hopen
      rw [hopen]
      unfold shuts at hopen ⊢
      rw [hnext, if_neg hnone, hc]
      cases hignored : s.ignoredText? with
      | none => rfl
      | some text =>
        rw [hignored, Option.any_some, Bool.or_eq_false_iff] at hopen
        rw [Option.any_some, hopen.1, Bool.false_or]
        exact beq_eq_false_iff_ne.2 (by simp [Settings.convertContent])

/-- Copies do not change what the gates answer for an old declaration, if only those have copies
that no gate keeps. -/
theorem gateOf_eq (hf : f.Consistent) (hg : WithCopies f s.convertContent copies g)
    (hd : d < f.size) (hc : f.contentOf d = some (.declaration prop value important))
    (hcopies : copies d ≠ [] → f.gateOf s d prop value file = none) :
    g.gateOf s d prop value file = f.gateOf s d prop value file :=
  List.find?_congr fun _ hgate => hg.shuts_eq hf hd hc hcopies hgate

/-- A declaration that was there changes if it did before there were copies. -/
theorem changesAt_eq (hf : f.Consistent) (hg : WithCopies f s.convertContent copies g)
    (hcopies : copies d ≠ [] → f.changesAt s file d = true) (hd : d < f.size) :
    g.changesAt s file d = f.changesAt s file d := by
  have hcontent := hg.contentOf_old hd
  by_cases hdecl : f.isDeclaration d = true
  · obtain ⟨prop, value, important, hc⟩ := isDeclaration_iff.1 hdecl
    rw [changesAt_declaration s file hc, changesAt_declaration s file (hcontent.trans hc),
      hg.gateOf_eq hf hd hc]
    intro hne
    have hchanges := hcopies hne
    rw [changesAt_declaration s file hc, Bool.and_eq_true, beq_iff_eq] at hchanges
    exact hchanges.1
  · rw [changesAt_eq_false s file hdecl, changesAt_eq_false s file]
    unfold isDeclaration at hdecl ⊢
    rwa [hcontent]

/-- Copies do not change: they name the custom property. -/
theorem changesAt_copy (hg : WithCopies f s.convertContent copies g) (hj : j ∈ copies d) :
    g.changesAt s file j = false := by
  have hcontent := hg.contentOf_copy hj
  cases hc : f.contentOf d with
  | none =>
    rw [hc] at hcontent
    exact changesAt_of_not_declaration s file (by simp [hcontent])
  | some c =>
    rw [hc, Option.map_some] at hcontent
    cases c with
    | declaration prop value important => exact changesAt_eq_false_of_convert hcontent
    | root | rule | atRule | comment =>
      exact changesAt_of_not_declaration s file (by simp [hcontent, Settings.convertContent])

/-- Copies are not converted: their values hold the custom property already. -/
theorem changesAt_new (hg : WithCopies f s.convertContent copies g) (hj : f.size ≤ j) :
    g.changesAt s file j = false := by
  by_cases hlt : j < g.size
  · obtain ⟨d, hd⟩ := hg.exists_copy j hj hlt
    exact hg.changesAt_copy hd
  · refine changesAt_of_not_declaration s file fun prop value important hc => hlt ?_
    obtain ⟨t, ht, -⟩ := Option.map_eq_some_iff.1 hc
    exact lt_size_of_get? ht

end WithCopies

/-! ## One insertion -/

/-- A cursor that a change passes over stays where it is. -/
theorem cursor?_shiftCursors {t : Slot} {key : Nat} {n : Int} {q : Int → Bool}
    (ht : t.cursor? key = some n) (hq : q n = false) (amount : Int) :
    (t.shiftCursors q amount).cursor? key = some n := by
  have hkey : ∀ k : Cursor, (k.shift q amount).key = k.key := by
    intro k
    unfold Cursor.shift
    split <;> rfl
  unfold Slot.cursor? at ht ⊢
  obtain ⟨k, hk, rfl⟩ := Option.map_eq_some_iff.1 ht
  unfold Slot.shiftCursors
  rw [List.find?_map]
  simp only [Function.comp_def, hkey]
  rw [hk, Option.map_some, Option.map_some, Cursor.shift, hq]
  rfl

/-- Splicing in behind a node puts the new ones directly behind it. -/
theorem spliceAt_behind (front new rest : List NodeId) (i : NodeId) :
    spliceAt (front ++ i :: rest) ((front.length : Int) + 1) new =
      front ++ i :: (new ++ rest) := by
  have hclamp : clampIndex (front ++ i :: rest).length ((front.length : Int) + 1) =
      (front ++ [i]).length := by
    unfold clampIndex
    rw [List.length_append, List.length_append, List.length_cons, List.length_singleton,
      if_neg (by omega)]
    omega
  unfold spliceAt
  dsimp only
  rw [hclamp, List.append_cons front i rest, List.take_left, List.drop_left, List.append_assoc,
    List.append_assoc]
  rfl

/-- The forest with a converted copy of a node put in behind position `n` of a container. -/
def copyBehind (g : Forest) (s : Settings) (t : Slot) (p : NodeId) (n : Int) : Forest :=
  (g.add { t with content := s.convertContent t.content, cursors := [] }).2.update p
    (·.insertAfter n [g.size])

/-- Visiting a declaration that changes puts a converted copy behind it. -/
theorem visitDeclaration_of_inserts {t : Slot} (hs : s.replaces = false) (hi : g.Listed i)
    (ht : g.get? i = some t) (hleaf : t.children = []) (hp : t.parent = some p)
    (hchanges : g.changesAt s file i = true) (n : Int) (log : Log) :
    ∃ log', visitDeclaration s file i n log g = .ok (true, log') (g.copyBehind s t p n) := by
  obtain ⟨prop, value, important, hc, hgate, hvalue⟩ := exists_declaration_of_changesAt hchanges
  have hcontent : t.content = .declaration prop value important :=
    Option.some.inj ((contentOf_of_get? ht).symm.trans hc)
  have hset : (Attribute.value (s.convert value)).setIn? t.content =
      some (s.convertContent t.content) := by
    rw [hcontent]
    rfl
  have hparent : g.parentOf i = some p := by
    rw [parentOf_of_get? ht]
    exact hp
  unfold visitDeclaration
  rw [Walk.getThe_bind_apply, hc]
  dsimp only
  rw [Walk.lift_bind_ok (skippedBy_apply hi), hgate]
  simp only [beq_eq_false_iff_ne.2 hvalue, hs, Bool.false_eq_true, if_false]
  rw [Walk.getThe_bind_apply, hparent]
  dsimp only
  rw [Walk.lift_bind_ok (clone_leaf ht hleaf hset), Walk.lift_bind_ok (insertAfter_new rfl p n),
    ← hp]
  exact ⟨_, rfl⟩

section CopyBehind

variable {t : Slot} {n : Int} {key : Nat} {front todo : List NodeId}

theorem size_copyBehind (g : Forest) (s : Settings) (t : Slot) (p : NodeId) (n : Int) :
    (g.copyBehind s t p n).size = g.size + 1 := by
  unfold copyBehind
  rw [size_update, size_add]

theorem get?_copyBehind (hp : p < g.size) (s : Settings) (t : Slot) (n : Int) (j : NodeId) :
    (g.copyBehind s t p n).get? j =
      if j = g.size then some { t with content := s.convertContent t.content, cursors := [] }
      else if p = j then (g.get? p).map (·.insertAfter n [g.size]) else g.get? j := by
  unfold copyBehind
  rw [get?_update, get?_add]
  by_cases hj : j = g.size
  · rw [if_neg (fun h : p = j => Nat.ne_of_lt hp (h.trans hj)), if_pos hj, if_pos hj]
  · rw [if_neg hj, if_neg hj]
    split
    · next h => rw [h]
    · rfl

theorem keysGiven_copyBehind (hg : g.KeysGiven) (s : Settings) (t : Slot) (p : NodeId) (n : Int) :
    (g.copyBehind s t p n).KeysGiven := by
  unfold copyBehind
  refine KeysGiven.update (fun i u hu k hk => ?_) fun u hu k hk => ?_
  · rw [get?_add] at hu
    split at hu
    · obtain rfl := Option.some.inj hu
      cases hk
    · exact hg i u hu k hk
  · exact keysGiven_shiftCursors { u with children := _ } hu _ _ k hk

theorem sameBut_copyBehind (hg : f.size ≤ g.size) (hp : p < g.size) :
    SameBut f (· = p) g (g.copyBehind s t p n) := by
  intro j hj hne
  have hlt : j < g.size := hj.trans_le hg
  rw [get?_copyBehind hp, if_neg (Nat.ne_of_lt hlt), if_neg (Ne.symm hne)]

/-- The iteration over the container goes on with the copy. -/
theorem standsAt_copyBehind (hat : StandsAt g p key front (i :: todo)) (hp : p < g.size) :
    StandsAt (g.copyBehind s t p front.length) p key front (i :: g.size :: todo) := by
  obtain ⟨u, hu, hcursor⟩ := Option.bind_eq_some_iff.1 hat.cursor_eq
  have hget : (g.copyBehind s t p front.length).get? p =
      some (u.insertAfter front.length [g.size]) := by
    rw [get?_copyBehind hp, if_neg (Nat.ne_of_lt hp), if_pos rfl, hu]
    rfl
  have hchildren : u.children = front ++ i :: todo :=
    (childrenOf_of_get? hu).symm.trans hat.childrenOf_eq
  constructor
  · rw [childrenOf_of_get? hget]
    show spliceAt u.children _ _ = _
    rw [hchildren, spliceAt_behind]
    rfl
  · rw [hget]
    refine cursor?_shiftCursors ?_ (by simp) _
    exact hcursor

/-- A copy that is put in behind a declaration makes it one with one copy. -/
theorem WithCopies.copyBehind (hf : f.Consistent) (hg : WithCopies f s.convertContent copies g)
    (hdp : f.parentOf d = some p) (hcopies : copies d = []) (ht : g.get? d = some t)
    (hleaf : t.children = []) (hat : StandsAt g p key front (d :: todo)) :
    WithCopies f s.convertContent (Function.update copies d [g.size])
      (g.copyBehind s t p front.length) := by
  have hp : p < g.size := (hf.lt_size_of_hangsFrom hdp).2.trans_le hg.size_le_size
  refine hg.insert hf hdp hcopies hat.childrenOf_eq (size_copyBehind ..) ?_ ?_ fun j hj hne => ?_
  · rw [get?_plain, get?_plain, get?_copyBehind hp, if_pos rfl, ht, ← hleaf]
    rfl
  · rw [get?_plain, get?_plain, get?_copyBehind hp, if_neg (Nat.ne_of_lt hp), if_pos rfl,
      Option.map_map, Option.map_map]
    refine Option.map_congr fun u hu => ?_
    have hchildren : u.children = front ++ d :: todo :=
      (childrenOf_of_get? hu).symm.trans hat.childrenOf_eq
    show ({ u.plain with
      children := spliceAt u.children ((front.length : Int) + 1) [g.size] } : Slot) = _
    rw [hchildren, spliceAt_behind]
    rfl
  · rw [get?_plain, get?_plain, get?_copyBehind hp, if_neg hj, if_neg (Ne.symm hne)]

end CopyBehind

/-! ## One run -/

/-- What is known once the nodes among `done` were visited. -/
def Inserted (f : Forest) (s : Settings) (file : Option String) (done : List NodeId)
    (state : Nat × Log) (g : Forest) : Prop :=
  ∃ copies, WithCopies f s.convertContent copies g ∧
    (∀ d, (copies d).length = if d ∈ done ∧ f.changesAt s file d = true then 1 else 0) ∧
    state.1 = done.countP (f.changesAt s file)

theorem changesAt_of_copies {done : List NodeId}
    (hlength : ∀ d, (copies d).length = if d ∈ done ∧ f.changesAt s file d = true then 1 else 0)
    (h : copies d ≠ []) : d ∈ done ∧ f.changesAt s file d = true := by
  by_contra hnot
  have hzero := hlength d
  rw [if_neg hnot] at hzero
  exact h (List.length_eq_zero_iff.1 hzero)

/-- A visit of a node that does not change leaves all as it was inserted. -/
theorem Inserted.of_changesAt_eq_false {done : List NodeId} {count : Nat} {log log' : Log}
    (h : f.Inserted s file done (count, log) g) (hi : f.changesAt s file i = false) :
    f.Inserted s file (done ++ [i]) (count + (if false then 1 else 0), log') g := by
  obtain ⟨copies, hcopies, hlength, hcount⟩ := h
  refine ⟨copies, hcopies, fun d => ?_, ?_⟩
  · rw [hlength d]
    refine if_congr ?_ rfl rfl
    rw [List.mem_append, List.mem_singleton, or_and_right]
    refine (or_iff_left ?_).symm
    rintro ⟨rfl, hd⟩
    rw [hi] at hd
    cases hd
  · rw [List.countP_append, List.countP_singleton, hi]
    exact hcount

section Visits

variable {done : List NodeId} {count : Nat} {log : Log} {key : Nat} {front todo : List NodeId}

/-- A node that was not visited yet has no copies, and would change if it would have changed in the
forest that the transform started with. -/
theorem Inserted.changesAt_eq (hf : f.Consistent)
    (hlength : ∀ d, (copies d).length = if d ∈ done ∧ f.changesAt s file d = true then 1 else 0)
    (hg : WithCopies f s.convertContent copies g) (hi : i ∉ done) (hsize : i < f.size) :
    copies i = [] ∧ g.changesAt s file i = f.changesAt s file i := by
  have hnone : copies i = [] := by
    by_contra hne
    exact hi (changesAt_of_copies hlength hne).1
  exact ⟨hnone, hg.changesAt_eq hf (fun hne => absurd hnone hne) hsize⟩

/-- The visit of a declaration that changes puts its copy behind it. -/
theorem Consistent.putsBehind_of_changesAt (hf : f.Consistent) (hs : s.replaces = false)
    (hip : f.HangsFrom i p) (hi : i ∉ done) (hfi : f.changesAt s file i = true)
    (hkeys : g.KeysGiven) (hat : StandsAt g p key front (i :: todo))
    (hinserted : f.Inserted s file done (count, log) g.plain) :
    PutsBehind f (· = p) (onDeclarations .all (countingVisit s file) i front.length) (count, log) g
      p key front i todo (f.Inserted s file (done ++ [i])) := by
  obtain ⟨copies, hcopies, hlength, hcount⟩ := hinserted
  have hg : WithCopies f s.convertContent copies g := hcopies.of_plain (plain_plain g).symm
  obtain ⟨hlt, hplt⟩ := hf.lt_size_of_hangsFrom hip
  obtain ⟨hnone, hchanges⟩ := Inserted.changesAt_eq hf hlength hg hi hlt
  have hconsistent := hg.consistent hf hkeys
  obtain ⟨t, ht⟩ := get?_eq_some_of_lt (hlt.trans_le hg.size_le_size)
  have hp : p < g.size := hplt.trans_le hg.size_le_size
  -- It is a declaration and no copy so far, so it has no children, and its parent is the old one.
  have hleaf : t.children = [] := by
    obtain ⟨prop, value, important, hc, -⟩ := exists_declaration_of_changesAt hfi
    rw [← childrenOf_of_get? ht]
    refine hconsistent.childrenOf_eq_nil ?_
    rw [isContainer, hg.contentOf_old hlt, hc]
    rfl
  have hparent : t.parent = some p := by
    rw [← parentOf_of_get? ht, hg.parentOf_old hlt]
    exact hip
  obtain ⟨log', hrun⟩ := visitDeclaration_of_inserts hs (hconsistent.listed i) ht hleaf hparent
    (hchanges.trans hfi) front.length log
  refine ⟨[g.size], _, _, onDeclarations_countingVisit_of_ok count hrun,
    keysGiven_copyBehind hkeys s t p _, sameBut_copyBehind hg.size_le_size hp, Nat.le_refl 1,
    by simpa using hg.size_le_size, standsAt_copyBehind hat hp,
    Function.update copies i [g.size],
    (hg.copyBehind hf hip hnone ht hleaf hat).of_plain (plain_plain _), fun d => ?_, ?_⟩
  -- The new copy is the only one of this declaration, and no other has got one.
  · by_cases hd : d = i
    · rw [hd, Function.update_self, if_pos ⟨by simp, hfi⟩]
      rfl
    · rw [Function.update_of_ne hd, hlength d]
      simp [hd]
  · rw [List.countP_append, List.countP_singleton, hfi]
    exact congrArg (· + 1) hcount

/-- The visit of any other node leaves the forest as it is. -/
theorem Consistent.putsBehind_of_changesAt_eq_false (hf : f.Consistent) (hip : f.HangsFrom i p)
    (hi : i ∉ done) (hfi : f.changesAt s file i = false) (hkeys : g.KeysGiven)
    (hat : StandsAt g p key front (i :: todo))
    (hinserted : f.Inserted s file done (count, log) g.plain) :
    PutsBehind f (· = p) (onDeclarations .all (countingVisit s file) i front.length) (count, log) g
      p key front i todo (f.Inserted s file (done ++ [i])) := by
  obtain ⟨copies, hcopies, hlength, -⟩ := id hinserted
  have hg : WithCopies f s.convertContent copies g := hcopies.of_plain (plain_plain g).symm
  obtain ⟨-, hchanges⟩ :=
    Inserted.changesAt_eq hf hlength hg hi (hf.lt_size_of_hangsFrom hip).1
  obtain ⟨log', hrun⟩ := visitDeclaration_of_changesAt_eq_false
    ((hg.consistent hf hkeys).listed i) (hchanges.trans hfi) front.length log
  exact ⟨[], _, g, onDeclarations_countingVisit_of_ok count hrun, hkeys, fun _ _ _ => rfl,
    Nat.zero_le 1, nofun, hat, hinserted.of_changesAt_eq_false hfi⟩

end Visits

/-- The visits of the transform put copies only behind the declarations they are made at, and no
visit is made at a copy. -/
theorem Consistent.growsBelow (hf : f.Consistent) (file : Option String)
    (hs : s.replaces = false) :
    GrowsBelow f (onDeclarations .all (countingVisit s file)) (f.Inserted s file) where
  putsBehind := by
    rintro done i p hip hi ⟨count, log⟩ g key front todo hkeys hat hinserted
    cases hfi : f.changesAt s file i with
    | false => exact hf.putsBehind_of_changesAt_eq_false hip hi hfi hkeys hat hinserted
    | true => exact hf.putsBehind_of_changesAt hs hip hi hfi hkeys hat hinserted
  -- A copy names the custom property, so its own visit does nothing.
  passesNew := by
    rintro done j n ⟨count, log⟩ g hj hinserted
    obtain ⟨copies, hcopies, -, hcount⟩ := id hinserted
    have hg : WithCopies f s.convertContent copies g := hcopies.of_plain (plain_plain g).symm
    have hsame : g.changesAt s file j = false := hg.changesAt_new hj
    obtain ⟨log', hrun⟩ := visitDeclaration_of_changesAt_eq_false
      (fun p hp => (hg.mem_childrenOf_iff hf j p).2 hp) hsame n log
    exact ⟨_, onDeclarations_countingVisit_of_ok count hrun, hinserted⟩
  size_le := by
    rintro done state g ⟨copies, hcopies, -⟩
    exact hcopies.size_le_size
  isContainer_old := by
    rintro done state g i ⟨copies, hcopies, -⟩ hi
    exact hcopies.isContainer_old hi
  -- Copies are declarations, as their originals are.
  isContainer_new := by
    rintro done state g j ⟨copies, hcopies, hlength, -⟩ hj
    unfold isContainer
    by_cases hlt : j < g.size
    · obtain ⟨d, hd⟩ := hcopies.exists_copy j hj hlt
      obtain ⟨prop, value, important, hc, -⟩ := exists_declaration_of_changesAt
        (changesAt_of_copies hlength (List.ne_nil_of_mem hd)).2
      rw [hcopies.contentOf_copy hd, hc]
      rfl
    · unfold contentOf
      rw [show g.get? j = none from Array.getElem?_eq_none (Nat.le_of_not_lt hlt)]
      rfl
  -- Only children that were visited may have copies behind them.
  childrenOf_eq := by
    rintro done state g c ⟨copies, hcopies, hlength, -⟩ hc hdone
    rw [hcopies.childrenOf_old hc]
    refine withCopies_eq_self fun d hd => ?_
    by_contra hne
    exact hdone d hd (changesAt_of_copies hlength hne).1

/-- The transform comes to its end, and has put a copy behind each declaration below the root that
changes. -/
theorem Consistent.transform_inserts (hf : f.Consistent) (hs : s.replaces = false) {root : NodeId}
    (hroot : root < f.size) :
    ∃ count log g, transform s root f = .ok (count, log) g ∧ g.KeysGiven ∧
      f.Inserted s (f.fileOf root) ((f.visitsOf root).map Prod.fst) (count, log) g := by
  have hbound : 2 * f.size < f.transformBound := by
    unfold transformBound
    omega
  have hstart : f.Inserted s (f.fileOf root) [] (0, []) f.plain :=
    ⟨fun _ => [], (WithCopies.refl f).of_plain (plain_plain f), by simp, rfl⟩
  obtain ⟨⟨count, log⟩, g, hrun, hkeys, -, copies, hcopies, hlength, hcount⟩ :=
    hf.walk_grows hbound (hf.growsBelow (f.fileOf root) hs) (f.size + 1) root (hf.endsWithin root)
      hroot [] (0, []) f (by rw [List.nil_append]; exact hf.nodup_visitsOf root) hf.keysGiven hstart
  have hbelow : visitBelow s (f.fileOf root) .all root f = .ok (true, count, log) g := by
    rw [visitBelow_eq]
    exact hrun
  refine ⟨count, log, g, ?_, hkeys, copies, hcopies.of_plain (plain_plain g).symm, hlength, hcount⟩
  unfold transform
  rw [Edit.get_bind_apply, Edit.bind_ok hbelow]
  rfl

/-! ## Many runs -/

/-- Runs of the transform one after the other, with the counts they return. -/
def transformTimes (s : Settings) (root : NodeId) : Nat → Edit (List Nat)
  | 0 => return []
  | k + 1 => do
    let counts ← transformTimes s root k
    let (count, _) ← transform s root
    return counts ++ [count]

/-- A declaration below a root that no gate keeps as it is, and whose value has something to
convert. -/
def IsConvertible (f : Forest) (s : Settings) (root d : NodeId) : Prop :=
  f.IsBelow d root ∧ ∃ prop value important,
    f.contentOf d = some (.declaration prop value important) ∧
      (skippedBy s d prop value (f.fileOf root)).run f = .ok none f ∧ s.convert value ≠ value

/-- A declaration is convertible if it is visited and changes. -/
theorem Consistent.isConvertible_iff (hf : f.Consistent) {root : NodeId} :
    f.IsConvertible s root d ↔
      d ∈ (f.visitsOf root).map Prod.fst ∧ f.changesAt s (f.fileOf root) d = true := by
  rw [hf.mem_visitsOf_iff]
  refine and_congr_right fun _ => ?_
  constructor
  · rintro ⟨prop, value, important, hc, hgate, hvalue⟩
    have hrun : EStateM.Result.ok _ f = .ok none f :=
      (skippedBy_apply (hf.listed d)).symm.trans hgate
    rw [changesAt_declaration s _ hc, Bool.and_eq_true, beq_iff_eq, bne_iff_ne]
    exact ⟨(EStateM.Result.ok.inj hrun).1, hvalue⟩
  · intro h
    obtain ⟨prop, value, important, hc, hgate, hvalue⟩ := exists_declaration_of_changesAt h
    refine ⟨prop, value, important, hc, ?_, hvalue⟩
    rw [← hgate]
    exact skippedBy_apply (hf.listed d)

/-- The declarations below a root that change. -/
def changing (f : Forest) (s : Settings) (file : Option String) (root : NodeId) : List NodeId :=
  ((f.visitsOf root).map Prod.fst).filter (f.changesAt s file)

theorem mem_changing {root : NodeId} :
    d ∈ f.changing s file root ↔
      d ∈ (f.visitsOf root).map Prod.fst ∧ f.changesAt s file d = true :=
  List.mem_filter

theorem Consistent.nodup_changing (hf : f.Consistent) (s : Settings) (file : Option String)
    (root : NodeId) : (f.changing s file root).Nodup :=
  (hf.nodup_visitsOf root).filter _

/-- The same declarations change again after copies of them were put in. -/
theorem WithCopies.mem_changing_iff (hf : f.Consistent)
    (hg : WithCopies f s.convertContent copies g) (hkeys : g.KeysGiven) {root : NodeId}
    (hcopies : ∀ d, copies d ≠ [] → f.changesAt s file d = true) (d : NodeId) :
    d ∈ g.changing s file root ↔ d ∈ f.changing s file root := by
  rw [mem_changing, mem_changing, (hg.consistent hf hkeys).mem_visitsOf_iff, hf.mem_visitsOf_iff]
  by_cases hd : d < f.size
  · rw [hg.isBelow_iff hf hd, hg.changesAt_eq hf (hcopies d) hd]
  · rw [hg.changesAt_new (Nat.le_of_not_lt hd)]
    refine iff_of_false (fun h => Bool.false_ne_true h.2) fun h => hd ?_
    obtain ⟨prop, value, important, hc, -⟩ := exists_declaration_of_changesAt h.2
    obtain ⟨t, ht, -⟩ := Option.map_eq_some_iff.1 hc
    exact lt_size_of_get? ht

/-- One run more puts one copy more behind each declaration that changes. -/
theorem transformTimes_apply (hf : f.Consistent) {root : NodeId}
    (hroot : f.contentOf root = some (.root file)) (hs : s.replaces = false) :
    ∀ k : Nat, ∃ copies g,
      transformTimes s root k f =
        .ok (List.replicate k (f.changing s file root).length) g ∧
      WithCopies f s.convertContent copies g ∧ g.KeysGiven ∧
      ∀ d, (copies d).length = if d ∈ f.changing s file root then k else 0
  | 0 => ⟨fun _ => [], f, rfl, WithCopies.refl f, hf.keysGiven, fun d => by simp⟩
  | k + 1 => by
    -- By induction there are `k` runs already. What changes in their result is what changed at
    -- first: no copy does, and no gate sees the copies.
    obtain ⟨copies, g, hrun, hg, hkeys, hlength⟩ := transformTimes_apply hf hroot hs k
    have hcopies : ∀ d, copies d ≠ [] → f.changesAt s file d = true := by
      intro d hne
      by_contra hnot
      refine hne (List.length_eq_zero_iff.1 ?_)
      rw [hlength d, if_neg fun hmem => hnot (mem_changing.1 hmem).2]
    have hsize : root < f.size := by
      obtain ⟨t, ht, -⟩ := Option.map_eq_some_iff.1 hroot
      exact lt_size_of_get? ht
    have hfile : g.fileOf root = file := fileOf_eq ((hg.contentOf_old hsize).trans hroot)
    have hmem : ∀ d, d ∈ g.changing s file root ↔ d ∈ f.changing s file root :=
      hg.mem_changing_iff hf hkeys hcopies
    have hcons := hg.consistent hf hkeys
    obtain ⟨count, log, h, hrun', hkeys', copies', hh, hlength', hcount⟩ :=
      hcons.transform_inserts hs (hsize.trans_le hg.size_le_size)
    rw [hfile] at hlength' hcount
    have hlength'' : ∀ d, (copies' d).length = if d ∈ f.changing s file root then 1 else 0 := by
      intro d
      rw [hlength' d]
      exact if_congr (mem_changing.symm.trans (hmem d)) rfl rfl
    -- So the next run counts as many as the first.
    have hcount' : count = (f.changing s file root).length := by
      have hperm : (g.changing s file root).Perm (f.changing s file root) :=
        (List.perm_ext_iff_of_nodup (hcons.nodup_changing s file root)
          (hf.nodup_changing s file root)).2 hmem
      rw [← hperm.length_eq, show count = _ from hcount, List.countP_eq_length_filter]
      rfl
    -- And it puts its copies behind old nodes only, which makes one more for each of them.
    have hold : ∀ d, copies' d ≠ [] → d < f.size := by
      intro d hne
      by_contra hd
      have hchanges := (changesAt_of_copies hlength' hne).2
      rw [hg.changesAt_new (Nat.le_of_not_lt hd)] at hchanges
      cases hchanges
    refine ⟨fun d => copies' d ++ copies d, h, ?_, hg.trans hh hold, hkeys', fun d => ?_⟩
    · unfold transformTimes
      rw [Edit.bind_ok hrun, Edit.bind_ok hrun', List.replicate_succ', hcount']
      rfl
    · rw [List.length_append, hlength'' d, hlength d]
      split <;> omega

/-- Behind each declaration that can be converted, `k` runs put `k` converted copies; nothing else
changes, and every run returns the number of these declarations. -/
theorem transformTimes_of_inserts (hf : f.Consistent) {root : NodeId}
    (hroot : f.contentOf root = some (.root file)) (hs : s.replaces = false) (k : Nat) :
    ∃ ds : List NodeId, ds.Nodup ∧ (∀ d, d ∈ ds ↔ f.IsConvertible s root d) ∧
      ∃ copies g, (transformTimes s root k).run f = .ok (List.replicate k ds.length) g ∧
        WithCopies f s.convertContent copies g ∧
        (∀ d, (copies d).length = if d ∈ ds then k else 0) ∧ g.Consistent := by
  obtain ⟨copies, g, hrun, hg, hkeys, hlength⟩ := transformTimes_apply hf hroot hs k
  refine ⟨f.changing s file root, hf.nodup_changing s file root, fun d => ?_, copies, g, hrun, hg,
    hlength, hg.consistent hf hkeys⟩
  rw [hf.isConvertible_iff, fileOf_eq hroot]
  exact mem_changing

/-- Two runs on a sheet with two lengths, one of them in a declaration that a comment keeps as it
is. -/
theorem transformTimes_nestedTree : (ofTree nestedTree).2.Consistent ∧
    (ofTree nestedTree).2.contentOf 0 = some (.root (some "a.css")) ∧
    ({ nestedSettings with replaces := false } : Settings).replaces = false ∧
    ∃ copies g,
      (transformTimes { nestedSettings with replaces := false } 0 2).run (ofTree nestedTree).2 =
        .ok [1, 1] g ∧
      WithCopies (ofTree nestedTree).2
        ({ nestedSettings with replaces := false } : Settings).convertContent copies g ∧
      (∀ d, (copies d).length = if d = 6 then 2 else 0) ∧ g.Consistent := by
  obtain ⟨ds, hnodup, hmem, copies, g, hrun, hg, hlength, hcons⟩ :=
    @transformTimes_of_inserts _ { nestedSettings with replaces := false } (some "a.css")
      consistent_nestedTree 0 rfl rfl 2
  have hchanging : (ofTree nestedTree).2.changing { nestedSettings with replaces := false }
      (some "a.css") 0 = [6] := by
    decide +kernel
  have hds : ∀ d, d ∈ ds ↔ d = 6 := fun d => by
    rw [hmem, consistent_nestedTree.isConvertible_iff, ← mem_changing,
      show fileOf _ 0 = some "a.css" from rfl, hchanging, List.mem_singleton]
  have hone : ds = [6] := by
    refine List.perm_singleton.1 ((List.perm_ext_iff_of_nodup hnodup (List.nodup_singleton 6)).2 ?_)
    exact fun d => (hds d).trans List.mem_singleton.symm
  rw [hone] at hrun
  exact ⟨consistent_nestedTree, rfl, rfl, copies, g, hrun, hg, by simpa only [hds] using hlength,
    hcons⟩

end Forest

end PixelUnit
