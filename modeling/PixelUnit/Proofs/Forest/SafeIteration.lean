import PixelUnit.Proofs.Forest.Courses

/-!
# Iterations over containers that change

The callback of an iteration may move nodes in and out of the container, and iterate over it again.
At any time the children behind the position that is stored for the iteration are those that it has
not yet come to; those that no move touches keep their order, and each has its turn once. When the
iteration ends, its cursor is gone, and the cursors of other iterations are where they were. The
main result is `Forest.conducted_each`.
-/

namespace PixelUnit

open Sheet

namespace Forest

variable {it : Iteration} {i : NodeId} {pending : List NodeId} {es : List Event}

/-! ## Turns -/

theorem visitsIn_append (it : Iteration) (es es' : List Event) :
    visitsIn it (es ++ es') = visitsIn it es ++ visitsIn it es' :=
  List.flatMap_append

/-- A node that is visited is visited a first time. -/
theorem exists_first_visit (h : i ∈ visitsIn it es) :
    ∃ es₁ e es₂, es = es₁ ++ e :: es₂ ∧ i ∈ e.visits it ∧ i ∉ visitsIn it es₁ := by
  induction es with
  | nil => cases h
  | cons e es ih =>
    by_cases hnow : i ∈ e.visits it
    · exact ⟨[], e, es, rfl, hnow, List.not_mem_nil⟩
    · obtain ⟨es₁, e', es₂, rfl, hvisit, hfirst⟩ := ih ((List.mem_append.1 h).resolve_left hnow)
      refine ⟨e :: es₁, e', es₂, rfl, hvisit, fun hmem => ?_⟩
      exact (List.mem_append.1 hmem).elim hnow hfirst

/-- An iteration serves the nodes that are pending: it visits them in their order, but for nodes
that are inserted or moved. A node that is not moved before its turn has its turn once, behind those
before it. A node that is not pending has none, unless it is inserted. -/
structure Serves (it : Iteration) (pending : List NodeId) (es : List Event) : Prop where
  agree : AgreeBut (insertedIn es) (takenIn es) pending (visitsIn it es)
  turn : ∀ {before i after}, pending = before ++ i :: after → i ∉ before → i ∉ after →
    (∀ es₁, es₁ <+: es → i ∈ takenIn es₁ → i ∈ visitsIn it es₁) →
    ∃ es₁ e es₂, es = es₁ ++ e :: es₂ ∧ e.visits it = [i] ∧ i ∉ visitsIn it es₁ ∧
      (∀ j ∈ before, j ∈ takenIn es₁ ∨ j ∈ visitsIn it es₁) ∧
      (i ∉ insertedIn es₂ → i ∉ visitsIn it es₂)
  not_mem : ∀ {i}, i ∉ pending → i ∉ insertedIn es → i ∉ visitsIn it es

/-- What was before a node in a list of pending nodes is not behind it in what is visited and what
is ahead. -/
theorem mem_of_agreeBut {inserted taken before after seen ahead : List NodeId} {j : NodeId}
    (h : AgreeBut inserted taken (before ++ i :: after) (seen ++ i :: ahead)) (hi : i ∉ taken)
    (hbefore : i ∉ before) (hseen : i ∉ seen) (hj : j ∈ before) : j ∈ taken ∨ j ∈ seen := by
  by_contra hnot
  rw [not_or] at hnot
  have hfilter := h.filter_eq (fun x => x == i || x == j) fun t ht => by
    have hti : t ≠ i := fun hti => hi (hti ▸ ht)
    have htj : t ≠ j := fun htj => hnot.1 (htj ▸ ht)
    simp [hti, htj]
  have hnone : seen.filter (fun x => x == i || x == j) = [] := by
    refine List.filter_eq_nil_iff.2 fun x hx => ?_
    have hxi : x ≠ i := fun hxi => hseen (hxi ▸ hx)
    have hxj : x ≠ j := fun hxj => hnot.2 (hxj ▸ hx)
    simp [hxi, hxj]
  have hmem : j ∈ before.filter (fun x => x == i || x == j) := List.mem_filter.2 ⟨hj, by simp⟩
  rw [List.filter_append, List.filter_append, hnone, List.nil_append,
    List.filter_cons_of_pos (by simp)] at hfilter
  cases hcases : before.filter (fun x => x == i || x == j) with
  | nil =>
    rw [hcases] at hmem
    cases hmem
  | cons x xs =>
    rw [hcases, List.cons_append] at hfilter
    have hx : x ∈ before := (List.mem_filter.1 (hcases ▸ List.mem_cons_self)).1
    exact hbefore ((List.cons.inj hfilter).1 ▸ hx)

/-- A node that stands once in a list of pending nodes is not ahead any more when it is visited. -/
theorem not_mem_of_agreeBut {inserted taken before after seen ahead : List NodeId}
    (h : AgreeBut inserted taken (before ++ i :: after) (seen ++ i :: ahead)) (hi : i ∉ taken)
    (hbefore : i ∉ before) (hafter : i ∉ after) : i ∉ ahead := by
  have hcount := h.count_eq hi
  rw [List.count_append, List.count_append, List.count_cons_self, List.count_cons_self,
    List.count_eq_zero.2 hbefore, List.count_eq_zero.2 hafter] at hcount
  exact List.count_eq_zero.1 (by omega)

/-- An iteration that is on course whenever it has visited something, and visits all that is ahead
then, serves the nodes that are pending. -/
theorem serves_of_onCourse
    (hall : AgreeBut (insertedIn es) (takenIn es) pending (visitsIn it es))
    (hcourse : ∀ es₁ es₂, es = es₁ ++ es₂ → visitsIn it es₁ ≠ [] → ∃ ahead,
      AgreeBut (insertedIn es₁) (takenIn es₁) pending (visitsIn it es₁ ++ ahead) ∧
        AgreeBut (insertedIn es₂) (takenIn es₂) ahead (visitsIn it es₂)) :
    Serves it pending es where
  agree := hall
  turn := by
    intro before i after hpending hbefore hafter hturn
    have hvisited : i ∈ visitsIn it es := by
      by_contra hnot
      have htaken : i ∉ takenIn es := fun ht => hnot (hturn es (List.prefix_refl es) ht)
      exact hnot (hall.mem htaken (by rw [hpending]; simp))
    obtain ⟨es₁, e, es₂, hsplit, hvisit, hfirst⟩ := exists_first_visit hvisited
    obtain ⟨hvisits, hinserted, htaken⟩ := Event.of_mem_visits hvisit
    have hi : i ∉ takenIn es₁ := fun ht => hfirst (hturn es₁ ⟨_, hsplit.symm⟩ ht)
    -- up to the visit nothing is moved but before it
    have hvisitsIn : visitsIn it (es₁ ++ [e]) = visitsIn it es₁ ++ [i] := by
      rw [visitsIn_append, ← hvisits]
      exact congrArg (visitsIn it es₁ ++ ·) (List.flatMap_singleton _ e)
    have htakenIn : takenIn (es₁ ++ [e]) = takenIn es₁ := by
      rw [takenIn, List.flatMap_append, List.flatMap_singleton, htaken, List.append_nil]
      rfl
    obtain ⟨ahead, hpast, hfuture⟩ := hcourse (es₁ ++ [e]) es₂ (by rw [hsplit]; simp)
      (by rw [hvisitsIn]; simp)
    rw [hvisitsIn, htakenIn, hpending, List.append_assoc, List.singleton_append] at hpast
    exact ⟨es₁, e, es₂, hsplit, hvisits, hfirst,
      fun j hj => mem_of_agreeBut hpast hi hbefore hfirst hj,
      fun hnew => hfuture.not_mem hnew (not_mem_of_agreeBut hpast hi hbefore hafter)⟩
  not_mem hpending hnew := hall.not_mem hnew hpending

/-! ## Iterations from start to end -/

/-- An iteration over children of `f` starts, `es` happens, and it ends, which leaves `g`. It is
complete if all children had their turn: no visit stopped it or failed. -/
structure Conducted (it : Iteration) (f : Forest) (es : List Event) (g : Forest)
    (complete : Prop) : Prop where
  history : History f (es ++ [.ended it]) g
  ended_not_mem : .ended it ∉ es
  keysGiven : ∀ {es₁ es₂ u}, es = es₁ ++ es₂ → History f es₁ u → u.KeysGiven
  /-- From its first visit on, the position of the iteration divides the children into those that it
  has come to and those that are ahead. -/
  throughout : ∀ {es₁ es₂ u}, es = es₁ ++ es₂ → visitsIn it es₁ ≠ [] → History f es₁ u →
    ∃ passed ahead, it.Stands u passed ahead ∧
      AgreeBut (insertedIn es₁) (takenIn es₁) (visitsIn it es₁) passed ∧
      AgreeBut (insertedIn es₁) (takenIn es₁) (f.childrenOf it.container)
        (visitsIn it es₁ ++ ahead)
  /-- All iterations that run meanwhile stay on course. -/
  between : ∀ {es₁ es₂ es₃ u v}, es = es₁ ++ (es₂ ++ es₃) → History f es₁ u → History u es₂ v →
    ∀ {it' : Iteration} {passed ahead}, .ended it' ∉ es₂ → it'.Stands u passed ahead →
    ∃ passed' ahead', it'.Stands v passed' ahead' ∧
      AgreeBut (insertedIn es₂) (takenIn es₂) (passed ++ visitsIn it' es₂) passed' ∧
      AgreeBut (insertedIn es₂) (takenIn es₂) ahead (visitsIn it' es₂ ++ ahead')
  /-- Those that ran before go on to no other child, and do not end. -/
  outer : ∀ {it' : Iteration}, it'.key < f.nextKey it'.container →
    visitsIn it' es = [] ∧ .ended it' ∉ es
  /-- What is inserted up to the position of an iteration is passed, and what is inserted behind it
  is ahead. -/
  inserted : ∀ {es₁ es₂ m taken u v new k}, es = es₁ ++ .moved m taken :: es₂ → History f es₁ u →
    ∀ {it' : Iteration} {passed ahead}, it'.Stands u passed ahead →
    m.Inserts u it'.container new v k → ∃ passed ahead, it'.Stands v passed ahead ∧
      (k < passed.length →
        it'.Stands (m.perform.left u) (passed.take k ++ new ++ passed.drop k) ahead) ∧
      (passed.length ≤ k → it'.Stands (m.perform.left u) passed
        (ahead.take (k - passed.length) ++ new ++ ahead.drop (k - passed.length)))
  /-- The children that were there at the start have their turns. -/
  serves : complete → Serves it (f.childrenOf it.container) es
  /-- So do the children that are ahead at any time. -/
  serves_ahead : complete → ∀ {es₁ es₂ u passed ahead}, es = es₁ ++ es₂ → visitsIn it es₁ ≠ [] →
    History f es₁ u → it.Stands u passed ahead → Serves it ahead es₂
  /-- The cursor is dropped, however the iteration ends, and all others stay. -/
  key_not_mem : it.key ∉ g.keysOf it.container
  keysOf_eq : ∀ i, g.keysOf i = f.keysOf i
  cursor_eq : ∀ {h}, History f es h → ∀ {it' : Iteration}, it' ≠ it →
    (g.get? it'.container).bind (·.cursor? it'.key) =
      (h.get? it'.container).bind (·.cursor? it'.key)
  childrenOf_eq : ∀ {h}, History f es h → ∀ i, g.childrenOf i = h.childrenOf i

variable {σ : Type} {visit : Visit σ} {log : NodeId → Int → σ → Forest → List Event}
  {f g h u : Forest}
  {c : NodeId} {bound : Nat} {s : σ}

/-- An iteration that has started is on course until it ends. -/
theorem History.stands_started {todo : List NodeId} (hf : f.KeysGiven)
    (hc : f.childrenOf c = i :: todo)
    (hu : History f (.started ⟨c, f.nextKey c⟩ (f.childrenOf c).head? :: es) u)
    (hend : .ended ⟨c, f.nextKey c⟩ ∉ es) :
    ∃ passed ahead, Iteration.Stands ⟨c, f.nextKey c⟩ u passed ahead ∧
      AgreeBut (insertedIn es) (takenIn es) ([i] ++ visitsIn ⟨c, f.nextKey c⟩ es) passed ∧
      AgreeBut (insertedIn es) (takenIn es) todo (visitsIn ⟨c, f.nextKey c⟩ es ++ ahead) := by
  obtain _ | ⟨first, rest⟩ := hu
  obtain rfl := first.unique (.started f c)
  have hsize : c < f.size := lt_size_of_mem_childrenOf (by rw [hc]; exact List.mem_cons_self)
  have hat := standsAt_startCursor hf hsize
  rw [hc] at hat
  have hs : Iteration.Stands ⟨c, f.nextKey c⟩ (f.update c Slot.startCursor) ([] ++ [i]) todo :=
    Iteration.stands_concat_iff.2 hat
  exact rest.stands (hf.startCursorAt c 0) hend hs

/-- An iteration over children starts with a visit of the first of them. -/
theorem visitsIn_started {todo : List NodeId} (hc : f.childrenOf c = i :: todo) (es : List Event) :
    visitsIn ⟨c, f.nextKey c⟩ (.started ⟨c, f.nextKey c⟩ (f.childrenOf c).head? :: es) =
      [i] ++ visitsIn ⟨c, f.nextKey c⟩ es := by
  have hself : (Event.started ⟨c, f.nextKey c⟩ (f.childrenOf c).head?).visits ⟨c, f.nextKey c⟩ =
      (f.childrenOf c).head?.toList := if_pos rfl
  rw [visitsIn, List.flatMap_cons, hself, hc]
  rfl

/-- From its first visit on an iteration is on course. -/
theorem Courses.throughout (hcourses : Courses visit c (bound + 1) s f
    (course visit log c (bound + 1) s f) h) (hf : f.KeysGiven) {es₁ es₂ : List Event}
    (hes : course visit log c (bound + 1) s f = es₁ ++ es₂)
    (hvisited : visitsIn ⟨c, f.nextKey c⟩ es₁ ≠ []) (hu : History f es₁ u) :
    ∃ passed ahead, Iteration.Stands ⟨c, f.nextKey c⟩ u passed ahead ∧
      AgreeBut (insertedIn es₁) (takenIn es₁) (visitsIn ⟨c, f.nextKey c⟩ es₁) passed ∧
      AgreeBut (insertedIn es₁) (takenIn es₁) (f.childrenOf c)
        (visitsIn ⟨c, f.nextKey c⟩ es₁ ++ ahead) := by
  rcases hc : f.childrenOf c with _ | ⟨i, todo⟩
  case nil =>
    have hnone := hcourses.visitsIn_eq.trans (calls_of_childrenOf_eq_nil hc)
    rw [hes, visitsIn_append] at hnone
    exact absurd (List.append_eq_nil_iff.1 hnone).1 hvisited
  case cons =>
    rcases es₁ with _ | ⟨e, es₁⟩
    case nil => exact absurd rfl hvisited
    case cons =>
      obtain ⟨rfl, hrest⟩ := List.cons.inj hes
      have hended : .ended ⟨c, f.nextKey c⟩ ∉ es₁ := fun hmem =>
        hcourses.ended_not_mem (List.mem_cons_of_mem _ (hrest ▸ List.mem_append_left _ hmem))
      obtain ⟨passed, ahead, hs, hpassed, hahead⟩ := hu.stands_started hf hc hended
      rw [visitsIn_started hc]
      refine ⟨passed, ahead, hs, hpassed, ?_⟩
      rw [List.append_assoc]
      exact (AgreeBut.refl _ _ [i]).append hahead

/-- When an iteration that stands somewhere comes to its end, what was ahead has been visited. -/
theorem History.visits_ahead {es₁ es₂ : List Event} {passed ahead passed' : List NodeId}
    (hu : History f es₁ u) (hh : History f (es₁ ++ es₂) h) (hf : f.KeysGiven)
    (hended : .ended it ∉ es₂) (hs : it.Stands u passed ahead) (hend : it.Stands h passed' []) :
    AgreeBut (insertedIn es₂) (takenIn es₂) ahead (visitsIn it es₂) := by
  obtain ⟨u', hu', hrest⟩ := hh.split
  obtain rfl := hu'.unique hu
  obtain ⟨passed₁, ahead₁, hs₁, -, hahead⟩ := hrest.stands (hu.keysGiven hf) hended hs
  obtain ⟨-, rfl⟩ := hend.unique hs₁
  rwa [List.append_nil] at hahead

/-- Wherever an iteration stands, it serves the children that are ahead if it comes to its end. -/
theorem History.serves_ahead {es₁ es₂ : List Event} {passed ahead passed' : List NodeId}
    (hu : History f es₁ u) (hh : History f (es₁ ++ es₂) h) (hf : f.KeysGiven)
    (hended : .ended it ∉ es₂) (hs : it.Stands u passed ahead) (hend : it.Stands h passed' []) :
    Serves it ahead es₂ := by
  refine serves_of_onCourse (hu.visits_ahead hh hf hended hs hend) fun es₃ es₄ hes _ => ?_
  subst hes
  rw [List.mem_append, not_or] at hended
  rw [← List.append_assoc] at hh
  obtain ⟨v, hv, -⟩ := hh.split
  obtain ⟨u', hu', huv⟩ := hv.split
  obtain rfl := hu'.unique hu
  obtain ⟨passed₁, ahead₁, hs₁, -, hahead⟩ := huv.stands (hu.keysGiven hf) hended.1 hs
  exact ⟨ahead₁, hahead, hv.visits_ahead hh hf hended.2 hs₁ hend⟩

/-- An iteration that comes to its end serves the children that were there at the start. -/
theorem Courses.serves (hcourses : Courses visit c (bound + 1) s f
    (course visit log c (bound + 1) s f) h) (hf : f.KeysGiven)
    (hend : f.childrenOf c ≠ [] → ∃ passed, Iteration.Stands ⟨c, f.nextKey c⟩ h passed []) :
    Serves ⟨c, f.nextKey c⟩ (f.childrenOf c) (course visit log c (bound + 1) s f) := by
  rcases hc : f.childrenOf c with _ | ⟨i, todo⟩
  case nil =>
    have hnone := hcourses.visitsIn_eq.trans (calls_of_childrenOf_eq_nil hc)
    refine serves_of_onCourse ?_ fun es₁ es₂ hes hvisited => ?_
    · rw [hnone]
      exact .refl _ _ _
    · rw [hes, visitsIn_append] at hnone
      exact absurd (List.append_eq_nil_iff.1 hnone).1 hvisited
  case cons =>
    obtain ⟨passed', hend⟩ := hend (by rw [hc]; exact List.cons_ne_nil i todo)
    have hvisited : visitsIn ⟨c, f.nextKey c⟩ (course visit log c (bound + 1) s f) ≠ [] := by
      rw [course, visitsIn_started hc]
      exact List.cons_ne_nil i _
    rw [← hc]
    refine serves_of_onCourse ?_ fun es₁ es₂ hes hvisited => ?_
    · obtain ⟨passed, ahead, hs, -, hall⟩ :=
        hcourses.throughout hf (List.append_nil _).symm hvisited hcourses.history
      obtain ⟨-, rfl⟩ := hend.unique hs
      rwa [List.append_nil] at hall
    · have hh := hcourses.history
      have hended := hcourses.ended_not_mem
      rw [hes] at hh
      rw [hes, List.mem_append, not_or] at hended
      obtain ⟨u, hu, -⟩ := hh.split
      obtain ⟨passed, ahead, hs, -, hpast⟩ := hcourses.throughout hf hes hvisited hu
      exact ⟨ahead, hpast, hu.visits_ahead hh hf hended.2 hs hend⟩

/-- Wherever an iteration stands after a visit, it serves the children that are ahead if it comes to
its end. -/
theorem Courses.serves_ahead (hcourses : Courses visit c (bound + 1) s f
    (course visit log c (bound + 1) s f) h) (hf : f.KeysGiven)
    (hend : f.childrenOf c ≠ [] → ∃ passed, Iteration.Stands ⟨c, f.nextKey c⟩ h passed [])
    {es₁ es₂ : List Event} {passed ahead : List NodeId}
    (hes : course visit log c (bound + 1) s f = es₁ ++ es₂)
    (hvisited : visitsIn ⟨c, f.nextKey c⟩ es₁ ≠ []) (hu : History f es₁ u)
    (hs : Iteration.Stands ⟨c, f.nextKey c⟩ u passed ahead) :
    Serves ⟨c, f.nextKey c⟩ ahead es₂ := by
  have hh := hcourses.history
  have hended := hcourses.ended_not_mem
  have hcalls := hcourses.visitsIn_eq
  rw [hes] at hh
  rw [hes, List.mem_append, not_or] at hended
  rw [hes, visitsIn_append] at hcalls
  have hc : f.childrenOf c ≠ [] := fun hc =>
    hvisited (List.append_eq_nil_iff.1 (hcalls.trans (calls_of_childrenOf_eq_nil hc))).1
  obtain ⟨passed', hend⟩ := hend hc
  exact hu.serves_ahead hh hf hended.2 hs hend

/-- While an iteration runs, those that ran before go on to no other child, and do not end. -/
theorem Courses.outer (hcourses : Courses visit c bound s f es h) {it' : Iteration}
    (hkey : it'.key < f.nextKey it'.container) : visitsIn it' es = [] ∧ .ended it' ∉ es := by
  have hnone := hcourses.balanced.visitsIn_eq_nil it' List.not_mem_nil hkey
  rw [visitsIn_append] at hnone
  exact ⟨(List.append_eq_nil_iff.1 hnone).1, fun hmem =>
    hcourses.balanced.ended_not_mem it' hkey (List.mem_append_left _ hmem)⟩

/-- The end of an iteration leaves the cursors of the others where they are. -/
theorem Courses.cursor?_eq (hcourses : Courses visit c bound s f es h) {h' : Forest}
    (hh' : History f es h') {it' : Iteration} (hne : it' ≠ ⟨c, f.nextKey c⟩) :
    (((each bound visit c s).left f).get? it'.container).bind (·.cursor? it'.key) =
      (h'.get? it'.container).bind (·.cursor? it'.key) := by
  obtain rfl := hh'.unique hcourses.history
  rw [hcourses.left_eq, get?_update]
  split_ifs with hc
  · have hkey : it'.key ≠ f.nextKey c := fun hkey => hne (Iteration.ext hc.symm hkey)
    cases h'.get? it'.container with
    | none => rfl
    | some t => exact t.cursor?_endCursor_of_ne hkey
  · rfl

/-- When a move has taken the new children from where they were, an iteration stands somewhere in
the container that they come into; what is inserted up to its position is passed, and what is
inserted behind it is ahead. -/
theorem Move.Inserts.exists_stands {m : Move} {new : List NodeId} {v : Forest} {k : Nat}
    {passed ahead : List NodeId} (hins : m.Inserts u it.container new v k)
    (hs : it.Stands u passed ahead) : ∃ passed ahead, it.Stands v passed ahead ∧
      (k < passed.length →
        it.Stands (m.perform.left u) (passed.take k ++ new ++ passed.drop k) ahead) ∧
      (passed.length ≤ k → it.Stands (m.perform.left u) passed
        (ahead.take (k - passed.length) ++ new ++ ahead.drop (k - passed.length))) := by
  have hcarries := carries_adopt it.container new u
  rw [Edit.left_ok hins.adopt_ok] at hcarries
  obtain ⟨passed', ahead', hs', -, -⟩ := hcarries.stands hs
  exact ⟨passed', ahead', hs', hins.stands hs'⟩

/-- Moves, new nodes and iterations in between keep an iteration on course. It comes to the children
that its callback is called with; in the end all other cursors are there, and its own is not. -/
theorem conducted_each (hvisit : ∀ i n s, Performs (visit i n s) (log i n s))
    (hf : f.KeysGiven) (c : NodeId) (bound : Nat) (s : σ) :
    visitsIn ⟨c, f.nextKey c⟩ (course visit log c (bound + 1) s f) =
        calls visit c (bound + 1) s f ∧
      Conducted ⟨c, f.nextKey c⟩ f (course visit log c (bound + 1) s f)
        ((each (bound + 1) visit c s).left f)
        (∃ s' g, each (bound + 1) visit c s f = .ok (true, s') g) := by
  -- What is logged leads from the start of the iteration to its end, which is the last event.
  obtain ⟨h, hcourses, hcomplete⟩ :=
    Logs.courses (fun i n s => (hvisit i n s).leads) hf c bound s
  refine ⟨hcourses.visitsIn_eq, ?_⟩
  have hended := Step.ended h ⟨c, f.nextKey c⟩
  rw [← hcourses.left_eq] at hended
  constructor
  case history => exact hcourses.history.append (.single hended)
  case ended_not_mem => exact hcourses.ended_not_mem
  case keysGiven => exact fun _ hu => hu.keysGiven hf
  case throughout => exact hcourses.throughout hf
  case between =>
    intro es₁ es₂ es₃ u v _ hu hv it' passed ahead hend hs
    exact hv.stands (hu.keysGiven hf) hend hs
  case outer => exact hcourses.outer
  case inserted =>
    intro es₁ es₂ m taken u v new k _ _ it' passed ahead hs hins
    exact hins.exists_stands hs
  case serves =>
    rintro ⟨s', g, hok⟩
    exact hcourses.serves hf fun hc => hcomplete hc s' g hok
  case serves_ahead =>
    rintro ⟨s', g, hok⟩ es₁ es₂ u passed ahead hes hvisited hu hs
    exact hcourses.serves_ahead hf (fun hc => hcomplete hc s' g hok) hes hvisited hu hs
  case key_not_mem =>
    intro hmem
    rw [hcourses.balanced.keysOf_eq] at hmem
    exact absurd (keysGiven_iff.1 hf _ _ hmem) (Nat.lt_irrefl _)
  case keysOf_eq => exact hcourses.balanced.keysOf_eq
  case cursor_eq => exact hcourses.cursor?_eq
  case childrenOf_eq =>
    intro h' hh' i
    obtain rfl := hh'.unique hcourses.history
    rw [hcourses.left_eq]
    exact childrenOf_update fun _ => rfl

/-- A rule with three comments. -/
def threeComments : Forest :=
  (({} : Forest).plant none (.node (.rule "a") {} [.node (.comment "1") {} [],
    .node (.comment "2") {} [], .node (.comment "3") {} []])).2

/-- A callback that moves the second of three children behind the others when it is at the first
one, and then iterates over them itself. -/
def shuffling : Visit Unit := fun i _ s =>
  if i = 1 then
    (Move.remove 2).perform >>= fun _ => (Move.append 0 [2]).perform >>= fun _ =>
      each 9 (fun _ _ s => pure (.proceed, s)) 0 s >>= fun r => pure (.proceed, r.2)
  else pure (.proceed, s)

/-- What the callback does is logged, whichever child it is at. -/
theorem performs_shuffling (i : NodeId) (n : Int) (s : Unit) :
    ∃ log, Performs (shuffling i n s) log := by
  have hquiet : ∀ {α : Type} (a : α), Performs (pure a : Edit α) fun _ => [] := fun _ =>
    .quiet fun _ => rfl
  unfold shuffling
  split_ifs
  · exact ⟨_, .bind (.move trivial) fun _ => .bind (.move trivial) fun _ =>
      .bind (.each (fun _ _ s => hquiet (Verdict.proceed, s)) 8 0 s) fun _ => hquiet _⟩
  · exact ⟨_, hquiet _⟩

theorem keysGiven_threeComments : threeComments.KeysGiven := by
  have hnone : ∀ i : Nat, i < 4 → threeComments.keysOf i = [] := by decide
  rw [keysGiven_iff]
  intro i k hk
  by_cases hi : threeComments.size ≤ i
  · have hget : threeComments.get? i = none := Array.getElem?_eq_none hi
    rw [keysOf, hget] at hk
    cases hk
  · rw [hnone i (Nat.lt_of_not_le hi)] at hk
    cases hk

/-- The nested iteration sees the children in their new order, and so does the outer one from there
on. -/
theorem conducted_shuffling : ∃ log, (∀ i n s, Performs (shuffling i n s) (log i n s)) ∧
    threeComments.KeysGiven ∧
    visitsIn ⟨0, 1⟩ (course shuffling log 0 9 () threeComments) = [1, 3, 2] ∧
    Conducted ⟨0, 1⟩ threeComments (course shuffling log 0 9 () threeComments)
      ((each 9 shuffling 0 ()).left threeComments)
      (∃ s' g, each 9 shuffling 0 () threeComments = .ok (true, s') g) := by
  choose log hlog using performs_shuffling
  obtain ⟨hvisits, hconducted⟩ := conducted_each hlog keysGiven_threeComments 0 8 ()
  have hcalls : calls shuffling 0 9 () threeComments = [1, 3, 2] := by decide +kernel
  exact ⟨log, hlog, keysGiven_threeComments, hvisits.trans hcalls, hconducted⟩

end Forest

end PixelUnit
