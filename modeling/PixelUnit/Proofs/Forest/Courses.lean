import PixelUnit.Proofs.Forest.Performing

/-!
# Courses of iterations

What is logged happens: the log of an action is a history of the forest, and the iterations that ran
before run on without a part in it (`Performs.leads`). For an iteration this is its course
(`Logs.courses`), in which it visits the children that its callback is called with.
-/

namespace PixelUnit

open Sheet

namespace Forest

variable {σ : Type}

/-! ## The course of an iteration -/

section Course

variable {visit : Visit σ} {log : NodeId → Int → σ → Forest → List Event} {it : Iteration}
  {f g h : Forest} {front todo : List NodeId} {i : NodeId} {s s' : σ} {es : List Event}

/-- What an iteration does behind a visit. -/
def goOn (visit : Visit σ) (it : Iteration) (bound : Nat) : Verdict → Walk σ Bool
  | .stop => pure false
  | .proceed => do
    modifyThe Forest fun f => f.update it.container (·.advanceCursor it.key)
    eachFrom visit it.container it.key bound

/-- An iteration that has come to a child calls the callback with it, and goes on after that. -/
theorem eachFrom_of_current? (bound : Nat) (s : σ) (hi : it.current? g = some i) :
    eachFrom visit it.container it.key (bound + 1) s g =
      (visit i (it.position g) >>= goOn visit it bound) s g := by
  unfold Iteration.current? at hi
  split_ifs at hi with hlt
  have hchild : childAt it.container (it.position g) g = .ok i g := by
    unfold childAt
    rw [Edit.get_bind_apply, hi]
    rfl
  exact (eachFrom_visit rfl hlt hchild).trans rfl

theorem eachFrom_of_error (bound : Nat) {e : EditError} (hi : it.current? g = some i)
    (hvisit : visit i (it.position g) s g = .error e h) :
    eachFrom visit it.container it.key (bound + 1) s g = .error e h :=
  (eachFrom_of_current? bound s hi).trans (Edit.bind_error hvisit _)

theorem eachFrom_of_stop (bound : Nat) (hi : it.current? g = some i)
    (hvisit : visit i (it.position g) s g = .ok (.stop, s') h) :
    eachFrom visit it.container it.key (bound + 1) s g = .ok (false, s') h :=
  (eachFrom_of_current? bound s hi).trans (Walk.bind_ok hvisit _)

theorem eachFrom_of_proceed (bound : Nat) (hi : it.current? g = some i)
    (hvisit : visit i (it.position g) s g = .ok (.proceed, s') h) :
    eachFrom visit it.container it.key (bound + 1) s g =
      eachFrom visit it.container it.key bound s'
        (h.update it.container (·.advanceCursor it.key)) :=
  (eachFrom_of_current? bound s hi).trans (Walk.bind_ok hvisit _)

/-- The log of an iteration that stands before a child has the log of its visit first. -/
theorem courseFrom_of_standsAt {bound : Nat}
    (hat : StandsAt g it.container it.key front (i :: todo)) :
    courseFrom visit log it (bound + 1) s g = log i front.length s g ++
      onProceed (visit i front.length s g) fun s f =>
        let f := f.update it.container (·.advanceCursor it.key)
        arrival it bound f ++ courseFrom visit log it bound s f := by
  have hposition : it.position g = front.length := hat.position_eq
  rw [courseFrom, Iteration.current?_of_standsAt hat, hposition, List.head?_cons]

theorem callsFrom_of_standsAt {bound : Nat}
    (hat : StandsAt g it.container it.key front (i :: todo)) :
    callsFrom visit it (bound + 1) s g = i ::
      onProceed (visit i front.length s g) fun s f =>
        callsFrom visit it bound s (f.update it.container (·.advanceCursor it.key)) := by
  have hposition : it.position g = front.length := hat.position_eq
  rw [callsFrom, Iteration.current?_of_standsAt hat, hposition, List.head?_cons]

/-- Where the cursor is does not matter when it is dropped. -/
theorem endCursor_advanceCursor (f : Forest) (c : NodeId) (key : Nat) :
    (f.update c (·.advanceCursor key)).update c (·.endCursor key) =
      f.update c (·.endCursor key) := by
  refine ext_get? fun i => ?_
  by_cases hi : c = i
  · subst hi
    rw [get?_update_self, get?_update_self, get?_update_self, Option.map_map]
    exact Option.map_congr fun s _ => s.endCursor_advanceCursor key
  · rw [get?_update_of_ne _ hi, get?_update_of_ne _ hi, get?_update_of_ne _ hi]

/-- What the events of a part of an iteration say. -/
structure Follows (it : Iteration) (x : Edit (Bool × σ)) (g : Forest) (es : List Event)
    (called : List NodeId) (h : Forest) : Prop where
  history : History g es h
  balanced : Balanced [it] g es h
  left_eq : (x.left g).update it.container (·.endCursor it.key) =
    h.update it.container (·.endCursor it.key)
  visitsIn_eq : visitsIn it es = called

/-- Where an iteration stands after its last visit if no visit ended it. -/
def Completes (it : Iteration) (x : Edit (Bool × σ)) (g h : Forest) : Prop :=
  ∀ s' g', x g = .ok (true, s') g' → ∃ passed, it.Stands h passed []

/-- Every visit causes the events that are logged for it. -/
def Logs (visit : Visit σ) (log : NodeId → Int → σ → Forest → List Event) : Prop :=
  ∀ i n s g, g.KeysGiven → Leads g (log i n s g) ((visit i n s).left g)

/-- After a visit the iteration still runs. -/
theorem Logs.runs (hlog : Logs visit log) (hg : g.KeysGiven)
    (hat : StandsAt g it.container it.key front (i :: todo)) :
    Balanced [it] g (log i front.length s g) ((visit i front.length s).left g) ∧
      visitsIn it (log i front.length s g) = [] ∧
      ∃ passed ahead, it.Stands ((visit i front.length s).left g) passed ahead := by
  have hs := Iteration.stands_concat_iff.2 hat
  obtain ⟨hhistory, hbalanced⟩ := hlog i front.length s g hg
  have hkey := hs.key_lt hg
  obtain ⟨passed, ahead, hs', -, -⟩ := hhistory.stands hg (hbalanced.ended_not_mem it hkey) hs
  exact ⟨hbalanced.mono (List.nil_subset _), hbalanced.visitsIn_eq_nil it List.not_mem_nil hkey,
    passed, ahead, hs'⟩

/-- An iteration whose last visit leaves `h`. -/
theorem Logs.follows_of_last (hlog : Logs visit log) (hg : g.KeysGiven)
    (hat : StandsAt g it.container it.key front (i :: todo)) {x : Edit (Bool × σ)}
    (hvisit : (visit i front.length s).left g = h)
    (hleft : (x.left g).update it.container (·.endCursor it.key) =
      h.update it.container (·.endCursor it.key)) :
    Follows it x g (log i front.length s g ++ []) [] h where
  history := by
    rw [List.append_nil, ← hvisit]
    exact (hlog i front.length s g hg).history
  balanced := by
    rw [List.append_nil, ← hvisit]
    exact (hlog.runs hg hat).1
  left_eq := hleft
  visitsIn_eq := by
    rw [List.append_nil]
    exact (hlog.runs hg hat).2.1

/-- An iteration that a visit ends. -/
theorem Logs.follows_of_end (hlog : Logs visit log) (hg : g.KeysGiven)
    (hat : StandsAt g it.container it.key front (i :: todo)) {x : Edit (Bool × σ)}
    (hvisit : (visit i front.length s).left g = h) (hleft : x.left g = h)
    (hends : ∀ s' g', x g ≠ .ok (true, s') g') :
    Follows it x g (log i front.length s g ++ []) [] h ∧ Completes it x g h :=
  ⟨hlog.follows_of_last hg hat hvisit (by rw [hleft]), fun s' g' hok => absurd hok (hends s' g')⟩

/-- An iteration that goes on and does not come to another child. -/
theorem Logs.follows_of_rest (hlog : Logs visit log) (hg : g.KeysGiven)
    (hat : StandsAt g it.container it.key front (i :: todo)) {x : Edit (Bool × σ)}
    (hvisit : (visit i front.length s).left g = h)
    (hleft : x.left g = h.update it.container (·.advanceCursor it.key)) :
    Follows it x g (log i front.length s g ++ ([] ++ [])) [] h := by
  refine hlog.follows_of_last hg hat hvisit ?_
  rw [hleft, endCursor_advanceCursor]

/-- An iteration that goes on to another visit. -/
theorem Logs.follows_of_next (hlog : Logs visit log) (hg : g.KeysGiven)
    (hat : StandsAt g it.container it.key front (i :: todo)) {x y : Edit (Bool × σ)} {h' : Forest}
    {j : NodeId} {called passed ahead : List NodeId}
    (hvisit : (visit i front.length s).left g = h) (hs : it.Stands h passed (j :: ahead))
    (hx : x g = y (h.update it.container (·.advanceCursor it.key)))
    (hy : Follows it y (h.update it.container (·.advanceCursor it.key)) es called h') :
    Follows it x g (log i front.length s g ++ ([.visited it j] ++ es)) (j :: called) h' where
  history := by
    refine History.append (hlog i front.length s g hg).history ?_
    rw [hvisit]
    exact .cons (.visited hs) hy.history
  balanced := by
    refine Balanced.trans (hlog.runs hg hat).1 ?_
    rw [hvisit]
    exact (Balanced.visited h it j).trans hy.balanced
  left_eq := by
    rw [← hy.left_eq, Edit.left, Edit.left, hx]
  visitsIn_eq := by
    have hself : (Event.visited it j).visits it = [j] := if_pos rfl
    rw [visitsIn, List.flatMap_append, List.flatMap_append, List.flatMap_singleton, hself]
    show visitsIn it (log i front.length s g) ++ ([j] ++ visitsIn it es) = _
    rw [(hlog.runs hg hat).2.1, hy.visitsIn_eq]
    rfl

/-- An iteration causes the events of its course. -/
theorem Logs.follows (hlog : Logs visit log) (it : Iteration) : ∀ (bound : Nat) (s : σ) (g : Forest)
    (front : List NodeId) (i : NodeId) (todo : List NodeId), g.KeysGiven →
    StandsAt g it.container it.key front (i :: todo) → ∃ called h,
      callsFrom visit it (bound + 1) s g = i :: called ∧
      Follows it (eachFrom visit it.container it.key (bound + 1) s) g
        (courseFrom visit log it (bound + 1) s g) called h ∧
      Completes it (eachFrom visit it.container it.key (bound + 1) s) g h := by
  intro bound s g front i todo hg hat
  have hi := Iteration.current?_of_standsAt hat
  have hposition : it.position g = front.length := hat.position_eq
  rw [courseFrom_of_standsAt hat, callsFrom_of_standsAt hat]
  -- The visit of the first child fails, or it stops the iteration, or the iteration goes on.
  cases hvisit : visit i front.length s g with
  | error e h =>
    have hrun := eachFrom_of_error bound hi (hposition ▸ hvisit)
    exact ⟨[], h, rfl, hlog.follows_of_end hg hat (Edit.left_error hvisit) (Edit.left_error hrun)
      (by rw [hrun]; nofun)⟩
  | ok r h =>
    obtain ⟨v, s'⟩ := r
    cases v with
    | stop =>
      have hrun := eachFrom_of_stop bound hi (hposition ▸ hvisit)
      exact ⟨[], h, rfl, hlog.follows_of_end hg hat (Edit.left_ok hvisit) (Edit.left_ok hrun)
        (by rw [hrun]; nofun)⟩
    | proceed =>
      have hrun := eachFrom_of_proceed bound hi (hposition ▸ hvisit)
      -- If it goes on, the bound may have been reached, there may be no child left, or the next one
      -- has its turn; only the last of these goes on by induction.
      cases bound with
      | zero =>
        refine ⟨[], h, rfl, hlog.follows_of_rest hg hat (Edit.left_ok hvisit) ?_, ?_⟩
        · exact Edit.left_error hrun
        · intro s' g' hok
          cases hrun.symm.trans hok
      | succ bound =>
        obtain ⟨passed, ahead, hs⟩ := (hlog.runs hg hat).2.2
        rw [Edit.left_ok hvisit] at hs
        have hnext := hs.standsAt_advance
        rw [onProceed_proceed, onProceed_proceed]
        dsimp only
        rw [arrival, Iteration.current?_of_standsAt hnext]
        cases ahead with
        | nil =>
          have hlength := congrArg List.length hnext.childrenOf_eq
          rw [List.append_nil] at hlength
          have hend := hrun.trans (eachFrom_nil hnext.position_eq hlength.le)
          rw [courseFrom, callsFrom, Iteration.current?_of_standsAt hnext]
          exact ⟨[], h, rfl, hlog.follows_of_rest hg hat (Edit.left_ok hvisit) (Edit.left_ok hend),
            fun _ _ _ => ⟨passed, hs⟩⟩
        | cons j ahead =>
          have hkeys := (hlog i front.length s g hg).history.keysGiven hg
          rw [Edit.left_ok hvisit] at hkeys
          obtain ⟨called, h', hcalls, hfollows, hcomplete⟩ :=
            hlog.follows it bound s' _ passed j ahead (hkeys.advanceCursor _ _) hnext
          rw [hcalls]
          refine ⟨j :: called, h', rfl,
            hlog.follows_of_next hg hat (Edit.left_ok hvisit) hs hrun hfollows, ?_⟩
          intro s'' g' hok
          exact hcomplete s'' g' (hrun.symm.trans hok)

/-! ## Whole iterations -/

/-- A change of a node that is not in the forest changes nothing. -/
theorem update_of_size_le {c : NodeId} (hc : f.size ≤ c) (a : Slot → Slot) : f.update c a = f := by
  refine ext_get? fun i => ?_
  by_cases hi : c = i
  · subst hi
    have hnone : f.get? c = none := Array.getElem?_eq_none hc
    rw [get?_update_self, hnone]
    rfl
  · exact get?_update_of_ne a hi

/-- What an iteration leaves is what its visits leave, without its cursor. -/
theorem left_each (visit : Visit σ) (c : NodeId) (bound : Nat) (s : σ) (f : Forest) :
    (each bound visit c s).left f =
      ((eachFrom visit c (f.nextKey c) bound s).left (f.update c Slot.startCursor)).update c
        (·.endCursor (f.nextKey c)) := by
  unfold Edit.left each withCursor nextKey
  dsimp only
  cases eachFrom visit c (((f.get? c).map Slot.lastKey).getD 0 + 1) bound s
    (f.update c Slot.startCursor) <;> rfl

/-- An iteration with a cursor of its own that ends well has gone through its visits. -/
theorem eachFrom_of_each {c : NodeId} {bound : Nat} {r : Bool × σ}
    (h : each bound visit c s f = .ok r g) :
    ∃ g', eachFrom visit c (f.nextKey c) bound s (f.update c Slot.startCursor) = .ok r g' := by
  unfold each withCursor at h
  dsimp only at h
  unfold nextKey
  cases hrun : eachFrom visit c (((f.get? c).map Slot.lastKey).getD 0 + 1) bound s
    (f.update c Slot.startCursor) with
  | ok a g' =>
    rw [hrun] at h
    cases h
    exact ⟨g', rfl⟩
  | error e g' =>
    rw [hrun] at h
    cases h

theorem keysOf_update_of_ne {c : NodeId} (a : Slot → Slot) (h : c ≠ i) :
    (f.update c a).keysOf i = f.keysOf i := by
  rw [keysOf, keysOf, get?_update_of_ne a h]

/-- The end of an iteration takes its key away. -/
theorem keysOf_endCursor (f : Forest) (c : NodeId) (key : Nat) :
    (f.update c (·.endCursor key)).keysOf c = (f.keysOf c).filter (· != key) := by
  unfold keysOf
  rw [get?_update_self]
  cases f.get? c with
  | none => rfl
  | some s =>
    show (s.cursors.filter (·.key != key)).map Cursor.key = _
    rw [Option.map_some, Option.getD_some, List.filter_map]
    rfl

/-- Starting a cursor and dropping it. -/
theorem KeysGiven.filter_keysOf_startCursor (hf : f.KeysGiven) (c : NodeId) :
    ((f.update c Slot.startCursor).keysOf c).filter (· != f.nextKey c) = f.keysOf c := by
  have hold : (f.keysOf c).filter (· != f.nextKey c) = f.keysOf c := by
    refine List.filter_eq_self.2 fun k hk => ?_
    have := keysGiven_iff.1 hf c k hk
    simp only [bne_iff_ne]
    omega
  cases hs : f.get? c with
  | none =>
    rw [update_of_size_le (Array.getElem?_eq_none_iff.1 hs)]
    exact hold
  | some s =>
    have hkeys : (f.update c Slot.startCursor).keysOf c = f.keysOf c ++ [f.nextKey c] := by
      unfold keysOf nextKey
      rw [get?_update_self, hs]
      show (s.cursors ++ [_]).map Cursor.key = _
      rw [List.map_append]
      rfl
    rw [hkeys, List.filter_append, hold]
    simp

/-- Starting an iteration gives out at most one key more. -/
theorem nextKey_startCursor_le (f : Forest) (c j : NodeId) :
    f.nextKey j ≤ (f.update c Slot.startCursor).nextKey j := by
  unfold nextKey
  rw [get?_update]
  split
  · rw [Option.map_map]
    cases f.get? j with
    | none => exact Nat.le_refl _
    | some s => exact Nat.succ_le_succ (Nat.le_succ _)
  · exact Nat.le_refl _

theorem nextKey_endCursor (f : Forest) (c j : NodeId) (key : Nat) :
    (f.update c (·.endCursor key)).nextKey j = f.nextKey j :=
  nextKey_update (·.endCursor key) (fun _ _ => rfl) j

/-- What the events of an iteration until its end say. -/
structure Courses (visit : Visit σ) (c : NodeId) (bound : Nat) (s : σ) (f : Forest)
    (es : List Event) (h : Forest) : Prop where
  history : History f es h
  left_eq : (each bound visit c s).left f = h.update c (·.endCursor (f.nextKey c))
  balanced : Balanced [] f (es ++ [.ended ⟨c, f.nextKey c⟩]) ((each bound visit c s).left f)
  ended_not_mem : .ended ⟨c, f.nextKey c⟩ ∉ es
  visitsIn_eq : visitsIn ⟨c, f.nextKey c⟩ es = calls visit c bound s f

/-- An iteration starts, its events follow, and it ends. -/
theorem courses_of_follows {c : NodeId} {bound : Nat} {called : List NodeId} (hf : f.KeysGiven)
    (hcalls : calls visit c bound s f = (f.childrenOf c).head?.toList ++ called)
    (hended : .ended ⟨c, f.nextKey c⟩ ∉ es)
    (hes : Follows ⟨c, f.nextKey c⟩ (eachFrom visit c (f.nextKey c) bound s)
      (f.update c Slot.startCursor) es called h) :
    Courses visit c bound s f (.started ⟨c, f.nextKey c⟩ (f.childrenOf c).head? :: es) h := by
  have hleft : (each bound visit c s).left f = h.update c (·.endCursor (f.nextKey c)) :=
    (left_each visit c bound s f).trans hes.left_eq
  have hold : ∀ it' : Iteration, it'.key < f.nextKey it'.container →
      it'.key < (f.update c Slot.startCursor).nextKey it'.container := fun it' hit =>
    hit.trans_le (nextKey_startCursor_le f c _)
  have hnew : ∀ it' : Iteration, it'.key < f.nextKey it'.container → ⟨c, f.nextKey c⟩ ≠ it' := by
    rintro it' hit rfl
    exact absurd hit (Nat.lt_irrefl _)
  -- The six things that are known of a course: its history, what it leaves, and that all other
  -- iterations are left alone.
  refine ⟨.cons (.started f c) hes.history, hleft, ⟨fun i => ?_, fun i => ?_, ?_, ?_⟩, ?_, ?_⟩
  · rw [hleft]
    by_cases hi : c = i
    · subst hi
      rw [keysOf_endCursor, hes.balanced.keysOf_eq, hf.filter_keysOf_startCursor]
    · rw [keysOf_update_of_ne _ hi, hes.balanced.keysOf_eq, keysOf_update_of_ne _ hi]
  · rw [hleft, nextKey_endCursor]
    exact (nextKey_startCursor_le f c i).trans (hes.balanced.nextKey_le i)
  -- The iteration has a key of its own, so no other one takes part in what is logged for it.
  · intro it' _ hit
    have hown : it' ∉ [(⟨c, f.nextKey c⟩ : Iteration)] := fun hmem =>
      hnew it' hit (List.mem_singleton.1 hmem).symm
    have hstarted : (Event.started ⟨c, f.nextKey c⟩ (f.childrenOf c).head?).visits it' = [] :=
      if_neg (hnew it' hit)
    show Event.visits it' _ ++ visitsIn it' (es ++ [.ended _]) = []
    rw [hstarted, visitsIn, List.flatMap_append, List.flatMap_singleton]
    show visitsIn it' es ++ [] = []
    rw [List.append_nil, hes.balanced.visitsIn_eq_nil it' hown (hold it' hit)]
  · intro it' hit hmem
    rcases List.mem_append.1 hmem with hmem | hmem
    · rcases List.mem_cons.1 hmem with hmem | hmem
      · cases hmem
      · exact hes.balanced.ended_not_mem it' (hold it' hit) hmem
    · have hended := List.mem_singleton.1 hmem
      exact hnew it' hit (Event.ended.inj hended).symm
  · intro hmem
    rcases List.mem_cons.1 hmem with hmem | hmem
    · cases hmem
    · exact hended hmem
  · have hstarted : (Event.started ⟨c, f.nextKey c⟩ (f.childrenOf c).head?).visits
        ⟨c, f.nextKey c⟩ = (f.childrenOf c).head?.toList := if_pos rfl
    show Event.visits _ _ ++ visitsIn _ es = _
    rw [hstarted, hes.visitsIn_eq, hcalls]

/-- An iteration over no children comes to none. -/
theorem current?_startCursor {c : NodeId} (hc : f.childrenOf c = []) :
    Iteration.current? ⟨c, f.nextKey c⟩ (f.update c Slot.startCursor) = none := by
  have hchildren : (f.update c Slot.startCursor).childrenOf c = [] :=
    ((sameShape_startCursorAt f c 0).childrenOf c).trans hc
  rw [Iteration.current?, hchildren]
  simp

theorem calls_of_childrenOf_eq_nil {c : NodeId} {bound : Nat} (hc : f.childrenOf c = []) :
    calls visit c (bound + 1) s f = [] := by
  rw [calls, callsFrom, current?_startCursor hc]

/-- An iteration over a container without children ends at once. -/
theorem eachFrom_of_childrenOf_eq_nil {c : NodeId} (hf : f.KeysGiven) (hc : f.childrenOf c = [])
    (bound : Nat) (s : σ) :
    eachFrom visit c (f.nextKey c) (bound + 1) s (f.update c Slot.startCursor) =
      .ok (true, s) (f.update c Slot.startCursor) := by
  have hchildren : (f.update c Slot.startCursor).childrenOf c = [] :=
    ((sameShape_startCursorAt f c 0).childrenOf c).trans hc
  refine eachFrom_nil (n := 0) ?_ (by rw [hchildren]; exact Nat.le_refl _)
  by_cases hsize : c < f.size
  · exact (standsAt_startCursor hf hsize).position_eq
  · have hle : f.size ≤ c := Nat.le_of_not_lt hsize
    have hnone : f.get? c = none := Array.getElem?_eq_none hle
    rw [update_of_size_le hle, hnone]
    rfl

/-- An iteration causes the events of its course, and at its end no child is ahead. -/
theorem Logs.courses (hlog : Logs visit log) (hf : f.KeysGiven) (c : NodeId) (bound : Nat)
    (s : σ) : ∃ h, Courses visit c (bound + 1) s f (course visit log c (bound + 1) s f) h ∧
      (f.childrenOf c ≠ [] → ∀ s' g, each (bound + 1) visit c s f = .ok (true, s') g →
        ∃ passed, Iteration.Stands ⟨c, f.nextKey c⟩ h passed []) := by
  have hkeys : (f.update c Slot.startCursor).KeysGiven := hf.startCursorAt c 0
  unfold course
  rcases hc : f.childrenOf c with _ | ⟨i, todo⟩
  case nil =>
    rw [courseFrom, current?_startCursor hc, ← hc]
    have hfollows : Follows ⟨c, f.nextKey c⟩ (eachFrom visit c (f.nextKey c) (bound + 1) s)
        (f.update c Slot.startCursor) [] [] (f.update c Slot.startCursor) := by
      refine ⟨.nil _, .refl _ _, ?_, rfl⟩
      rw [Edit.left_ok (eachFrom_of_childrenOf_eq_nil hf hc bound s)]
    refine ⟨f.update c Slot.startCursor, courses_of_follows hf ?_ List.not_mem_nil hfollows,
      fun h => absurd rfl h⟩
    rw [calls_of_childrenOf_eq_nil hc, hc]
    rfl
  case cons =>
    have hsize : c < f.size := lt_size_of_mem_childrenOf (by rw [hc]; exact List.mem_cons_self)
    have hat := standsAt_startCursor hf hsize
    rw [hc] at hat
    obtain ⟨called, h, hcalls, hfollows, hcomplete⟩ :=
      hlog.follows ⟨c, f.nextKey c⟩ bound s _ [] i todo hkeys hat
    have hs : Iteration.Stands ⟨c, f.nextKey c⟩ (f.update c Slot.startCursor) ([] ++ [i]) todo :=
      Iteration.stands_concat_iff.2 hat
    rw [← hc]
    have hended := hfollows.balanced.ended_not_mem _ (hs.key_lt hkeys)
    refine ⟨h, courses_of_follows hf ?_ hended hfollows, ?_⟩
    · rw [calls, hcalls, hc]
      rfl
    · intro _ s' g hok
      obtain ⟨g', hok'⟩ := eachFrom_of_each hok
      exact hcomplete s' g' hok'

end Course

/-! ## Actions -/

/-- An action that another one follows if it succeeds. -/
theorem Leads.bind {α β : Type} {x : Edit α} {k : α → Edit β} {logs : α → Forest → List Event}
    {f : Forest} {es : List Event} (hx : Leads f es (x.left f))
    (hk : ∀ a g, x f = .ok a g → Leads g (logs a g) ((k a).left g)) :
    Leads f (es ++ onOk x logs f) ((x >>= k).left f) := by
  unfold onOk
  cases hrun : x f with
  | ok a g =>
    have hleft : (x >>= k).left f = (k a).left g := by
      unfold Edit.left
      rw [Edit.bind_ok hrun]
    rw [Edit.left_ok hrun] at hx
    rw [hleft]
    exact hx.append (hk a g hrun)
  | error e g =>
    rw [Edit.left_error hrun] at hx
    rw [Edit.left_error (Edit.bind_error hrun k)]
    exact (List.append_nil es).symm ▸ hx

/-- An action that another one follows if it fails. -/
theorem Leads.catching {α : Type} {x : Edit α} {k : EditError → Edit α}
    {logs : EditError → Forest → List Event} {f : Forest} {es : List Event}
    (hx : Leads f es (x.left f))
    (hk : ∀ e g, x f = .error e g → Leads g (logs e g) ((k e).left g)) :
    Leads f (es ++ onError x logs f) ((tryCatch x k : Edit α).left f) := by
  unfold onError
  cases hrun : x f with
  | ok a g =>
    have hcaught : (tryCatch x k : Edit α) f = .ok a g := by
      show EStateM.tryCatch x k f = _
      rw [EStateM.tryCatch, hrun]
    rw [Edit.left_ok hrun] at hx
    rw [Edit.left_ok hcaught]
    exact (List.append_nil es).symm ▸ hx
  | error e g =>
    have hcaught : (tryCatch x k : Edit α) f = k e g := by
      show EStateM.tryCatch x k f = _
      rw [EStateM.tryCatch, hrun]
      rfl
    have hleft : (tryCatch x k : Edit α).left f = (k e).left g := by
      unfold Edit.left
      rw [hcaught]
    rw [Edit.left_error hrun] at hx
    rw [hleft]
    exact hx.append (hk e g hrun)

/-- The log of an action is a history of the forest, in which the iterations that ran before take no
part. -/
theorem Performs.leads {α : Type} {x : Edit α} {log : Forest → List Event} (hx : Performs x log) :
    ∀ f : Forest, f.KeysGiven → Leads f (log f) (x.left f) := by
  induction hx with
  | quiet hx =>
    intro f _
    rw [hx f]
    exact ⟨.nil f, .refl [] f⟩
  | move hm =>
    intro f _
    exact ⟨.single (.moved hm), .of_carries (Move.carries hm f) (fun _ => rfl) nofun⟩
  | create content raws =>
    intro f _
    exact ⟨.single (.created content raws),
      .of_carries (@Carries.add [] [] f { content, raws } rfl rfl) (fun _ => rfl) nofun⟩
  | bind _ _ ihx ihk =>
    intro f hf
    refine (ihx f hf).bind fun a g hrun => ihk a g ?_
    rw [← Edit.left_ok hrun]
    exact (ihx f hf).history.keysGiven hf
  | catching _ _ ihx ihk =>
    intro f hf
    refine (ihx f hf).catching fun e g hrun => ihk e g ?_
    rw [← Edit.left_error hrun]
    exact (ihx f hf).history.keysGiven hf
  | each _ bound c s ih =>
    intro f hf
    obtain ⟨h, hcourses, -⟩ := Logs.courses (fun i n s g => ih i n s g) hf c bound s
    have hended := Step.ended h ⟨c, f.nextKey c⟩
    rw [← hcourses.left_eq] at hended
    exact ⟨hcourses.history.append (.single hended), hcourses.balanced⟩

end Forest

end PixelUnit
