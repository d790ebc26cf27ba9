import PixelUnit.Proofs.Forest.History

/-!
# What callbacks do

The callback of an iteration may move and create nodes, look at the forest, fail, catch failures and
iterate itself. `Performs` says of an action that it is made of such parts, and logs the events that
it causes. The log of an iteration is `Forest.course`: it comes to a child, the callback does what
it does there, and so on to the next child.

Events are balanced if the iterations that ran before run on, and take no part in them
(`Balanced`).
-/

namespace PixelUnit

open Sheet

namespace Iteration

/-- The position that is stored for an iteration. -/
def position (it : Iteration) (f : Forest) : Int :=
  ((f.get? it.container).bind (·.cursor? it.key)).getD 0

/-- The child that an iteration has come to. -/
def current? (it : Iteration) (f : Forest) : Option NodeId :=
  if it.position f < (f.childrenOf it.container).length then
    (resolveIndex? (f.childrenOf it.container).length (it.position f)).bind
      ((f.childrenOf it.container)[·]?)
  else none

/-- An iteration comes to the next child, if there is one. -/
theorem current?_of_standsAt {it : Iteration} {f : Forest} {front todo : List NodeId}
    (hat : Forest.StandsAt f it.container it.key front todo) : it.current? f = todo.head? := by
  have hposition : it.position f = front.length := hat.position_eq
  have hlength : (f.childrenOf it.container).length = front.length + todo.length := by
    rw [hat.childrenOf_eq, List.length_append]
  unfold current?
  rw [hposition]
  cases todo with
  | nil =>
    rw [if_neg (by rw [hlength, List.length_nil]; omega)]
    rfl
  | cons i todo =>
    have hlt : front.length < (f.childrenOf it.container).length := by
      rw [hlength, List.length_cons]
      omega
    have hresolve : resolveIndex? (f.childrenOf it.container).length front.length =
        some front.length := by
      unfold resolveIndex?
      have h0 : ¬(front.length : Int) < 0 := by omega
      simp [h0, hlt]
    rw [if_pos (by omega), hresolve, Option.bind_some, hat.getElem?_eq]
    rfl

end Iteration

namespace Forest

variable {σ : Type}

/-! ## The log of an iteration -/

/-- An iteration comes to the next child, if there is one and the bound is not reached. -/
def arrival (it : Iteration) : Nat → Forest → List Event
  | 0, _ => []
  | _ + 1, f => (it.current? f).toList.map (.visited it)

/-- What comes behind a visit after which the iteration goes on. -/
def onProceed {α : Type} (r : EStateM.Result EditError Forest (Verdict × σ))
    (k : σ → Forest → List α) : List α :=
  match r with
  | .ok (.proceed, s) f => k s f
  | _ => []

@[simp] theorem onProceed_proceed {α : Type} (s : σ) (f : Forest) (k : σ → Forest → List α) :
    onProceed (.ok (.proceed, s) f) k = k s f :=
  rfl

/-- What happens in an iteration from a visit on. -/
def courseFrom (visit : Visit σ) (log : NodeId → Int → σ → Forest → List Event) (it : Iteration) :
    Nat → σ → Forest → List Event
  | 0, _, _ => []
  | bound + 1, s, f =>
    match it.current? f with
    | none => []
    | some i =>
      log i (it.position f) s f ++ onProceed (visit i (it.position f) s f) fun s f =>
        let f := f.update it.container (·.advanceCursor it.key)
        arrival it bound f ++ courseFrom visit log it bound s f

/-- What happens in an iteration until it ends. -/
def course (visit : Visit σ) (log : NodeId → Int → σ → Forest → List Event) (c : NodeId)
    (bound : Nat) (s : σ) (f : Forest) : List Event :=
  .started ⟨c, f.nextKey c⟩ (f.childrenOf c).head? ::
    courseFrom visit log ⟨c, f.nextKey c⟩ bound s (f.update c Slot.startCursor)

/-- The children that the callback of an iteration is called with from a visit on. -/
def callsFrom (visit : Visit σ) (it : Iteration) : Nat → σ → Forest → List NodeId
  | 0, _, _ => []
  | bound + 1, s, f =>
    match it.current? f with
    | none => []
    | some i =>
      i :: onProceed (visit i (it.position f) s f) fun s f =>
        callsFrom visit it bound s (f.update it.container (·.advanceCursor it.key))

/-- The children that the callback of an iteration is called with. -/
def calls (visit : Visit σ) (c : NodeId) (bound : Nat) (s : σ) (f : Forest) : List NodeId :=
  callsFrom visit ⟨c, f.nextKey c⟩ bound s (f.update c Slot.startCursor)

/-- What happens behind an action that succeeds. -/
def onOk {α : Type} (x : Edit α) (logs : α → Forest → List Event) (f : Forest) : List Event :=
  match x f with
  | .ok a g => logs a g
  | .error _ _ => []

/-- What happens behind an action that fails. -/
def onError {α : Type} (x : Edit α) (logs : EditError → Forest → List Event) (f : Forest) :
    List Event :=
  match x f with
  | .ok _ _ => []
  | .error e g => logs e g

/-- An action that moves nodes, creates them and iterates over them, with the events that it causes
in a forest. -/
inductive Performs : {α : Type} → Edit α → (Forest → List Event) → Prop
  | quiet {α : Type} {x : Edit α} (hx : ∀ f, x.left f = f) : Performs x fun _ => []
  | move {m : Move} (hm : m.Forward) : Performs m.perform fun f => [.moved m (m.taken f)]
  | create (content : Content) (raws : Raws) :
      Performs (create content raws []) fun _ => [.created content raws]
  | bind {α β : Type} {x : Edit α} {k : α → Edit β} {log : Forest → List Event}
      {logs : α → Forest → List Event} (hx : Performs x log) (hk : ∀ a, Performs (k a) (logs a)) :
      Performs (x >>= k) fun f => log f ++ onOk x logs f
  | catching {α : Type} {x : Edit α} {k : EditError → Edit α} {log : Forest → List Event}
      {logs : EditError → Forest → List Event} (hx : Performs x log)
      (hk : ∀ e, Performs (k e) (logs e)) :
      Performs (tryCatch x k) fun f => log f ++ onError x logs f
  | each {σ : Type} {visit : Visit σ} {log : NodeId → Int → σ → Forest → List Event}
      (hvisit : ∀ i n s, Performs (visit i n s) (log i n s)) (bound : Nat) (c : NodeId) (s : σ) :
      Performs (each (bound + 1) visit c s) fun f =>
        course visit log c (bound + 1) s f ++ [.ended ⟨c, f.nextKey c⟩]

/-! ## Iterations that take no part -/

/-- The same iterations run in the end, and of those only `own` take part in what happens. -/
structure Balanced (own : List Iteration) (f : Forest) (es : List Event) (g : Forest) : Prop where
  keysOf_eq : ∀ i, g.keysOf i = f.keysOf i
  nextKey_le : ∀ i, f.nextKey i ≤ g.nextKey i
  visitsIn_eq_nil : ∀ it : Iteration, it ∉ own → it.key < f.nextKey it.container →
    visitsIn it es = []
  ended_not_mem : ∀ it : Iteration, it.key < f.nextKey it.container → .ended it ∉ es

namespace Balanced

variable {own own' : List Iteration} {f g h : Forest} {es es' : List Event}

theorem refl (own : List Iteration) (f : Forest) : Balanced own f [] f where
  keysOf_eq _ := rfl
  nextKey_le _ := Nat.le_refl _
  visitsIn_eq_nil _ _ _ := rfl
  ended_not_mem _ _ := List.not_mem_nil

/-- What balances iterations twice balances them, with the iterations of both. -/
theorem trans (hfg : Balanced own f es g) (hgh : Balanced own g es' h) :
    Balanced own f (es ++ es') h where
  keysOf_eq i := (hgh.keysOf_eq i).trans (hfg.keysOf_eq i)
  nextKey_le i := (hfg.nextKey_le i).trans (hgh.nextKey_le i)
  visitsIn_eq_nil it hown hit := by
    rw [visitsIn, List.flatMap_append]
    exact List.append_eq_nil_iff.2 ⟨hfg.visitsIn_eq_nil it hown hit,
      hgh.visitsIn_eq_nil it hown (hit.trans_le (hfg.nextKey_le _))⟩
  ended_not_mem it hit hmem := by
    rcases List.mem_append.1 hmem with hmem | hmem
    · exact hfg.ended_not_mem it hit hmem
    · exact hgh.ended_not_mem it (hit.trans_le (hfg.nextKey_le _)) hmem

theorem mono (hfg : Balanced own f es g) (hsub : own ⊆ own') : Balanced own' f es g where
  keysOf_eq := hfg.keysOf_eq
  nextKey_le := hfg.nextKey_le
  visitsIn_eq_nil it hown := hfg.visitsIn_eq_nil it fun hmem => hown (hsub hmem)
  ended_not_mem := hfg.ended_not_mem

/-- An event that carries all iterations. -/
theorem of_carries {inserted taken : List NodeId} (hfg : Carries inserted taken f g)
    {e : Event} (hvisits : ∀ it, e.visits it = []) (hended : ∀ it, e ≠ .ended it) :
    Balanced own f [e] g where
  keysOf_eq := hfg.keysOf_eq
  nextKey_le i := (hfg.nextKey_eq i).ge
  visitsIn_eq_nil it _ _ := by rw [visitsIn, List.flatMap_singleton, hvisits]
  ended_not_mem it _ hmem := hended it (List.mem_singleton.1 hmem).symm

/-- An iteration goes on. -/
theorem visited (f : Forest) (it : Iteration) (i : NodeId) :
    Balanced [it] f [.visited it i] (f.update it.container (·.advanceCursor it.key)) where
  keysOf_eq := keysOf_update _ fun s _ => s.keys_advanceCursor it.key
  nextKey_le j := (nextKey_update (·.advanceCursor it.key) (fun _ _ => rfl) j).ge
  visitsIn_eq_nil it' hown _ := by
    rw [visitsIn, List.flatMap_singleton]
    exact if_neg fun h => hown (List.mem_singleton.2 h.symm)
  ended_not_mem it' _ hmem := by
    have := List.mem_singleton.1 hmem
    cases this

end Balanced

/-- Events that lead from one forest to another, without a part of the iterations that ran
before. -/
structure Leads (f : Forest) (es : List Event) (g : Forest) : Prop where
  history : History f es g
  balanced : Balanced [] f es g

theorem Leads.append {f g h : Forest} {es es' : List Event} (hfg : Leads f es g)
    (hgh : Leads g es' h) : Leads f (es ++ es') h :=
  ⟨hfg.history.append hgh.history, hfg.balanced.trans hgh.balanced⟩

end Forest

end PixelUnit
