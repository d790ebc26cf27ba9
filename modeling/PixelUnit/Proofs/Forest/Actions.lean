import PixelUnit.Forest.Walk

/-!
# Running actions

How an action on a forest runs, piece by piece: an action that succeeds hands its result and its
forest to the rest (`Edit.bind_ok`, `Walk.bind_ok`), and one that fails ends there
(`Edit.bind_error`, `Walk.bind_error`). With these equations a proof follows an action
line by line.
-/

namespace PixelUnit

namespace Edit

variable {α β : Type} {f f' : Forest}

/-- An action that succeeds hands its result and its forest to the rest. -/
theorem bind_ok {x : Edit α} {a : α} (h : x f = .ok a f') (k : α → Edit β) :
    (x >>= k) f = k a f' := by
  show EStateM.bind x k f = _
  rw [EStateM.bind, h]

/-- An action that fails ends there, with the forest it leaves. -/
theorem bind_error {x : Edit α} {e : EditError} (h : x f = .error e f') (k : α → Edit β) :
    (x >>= k) f = .error e f' := by
  show EStateM.bind x k f = _
  rw [EStateM.bind, h]

/-- The result of an action, if it succeeds. -/
def result? (x : Edit α) (f : Forest) : Option α :=
  match x.run f with
  | .ok a _ => some a
  | .error .. => none

theorem result?_ok {x : Edit α} {a : α} (h : x.run f = .ok a f') : x.result? f = some a := by
  rw [result?, h]

theorem modify_apply (k : Forest → Forest) : (modify k : Edit Unit) f = .ok () (k f) := rfl

theorem modifyGet_apply (k : Forest → α × Forest) :
    (modifyGet k : Edit α) f = .ok (k f).1 (k f).2 := rfl

@[simp] theorem get_bind_apply (k : Forest → Edit β) : (get >>= k) f = k f f := rfl

end Edit

namespace Walk

variable {σ α β : Type} {s s' : σ} {f f' : Forest}

/-- A walk that succeeds hands its result, the caller's state and its forest to the rest. -/
theorem bind_ok {x : Walk σ α} {a : α} (h : x s f = .ok (a, s') f') (k : α → Walk σ β) :
    (x >>= k) s f = k a s' f' := by
  show EStateM.bind (x s) (fun p => k p.1 p.2) f = _
  rw [EStateM.bind, h]

theorem bind_error {x : Walk σ α} {e : EditError} (h : x s f = .error e f') (k : α → Walk σ β) :
    (x >>= k) s f = .error e f' :=
  Edit.bind_error h _

/-- An action without a state of the caller's leaves that state alone. -/
theorem lift_bind_ok {x : Edit α} {a : α} (h : x f = .ok a f') (k : α → Walk σ β) :
    ((liftM x : Walk σ α) >>= k) s f = k a s f' := by
  refine bind_ok ?_ k
  show EStateM.bind x (fun a => pure (a, s)) f = _
  rw [EStateM.bind, h]
  rfl

@[simp] theorem getThe_bind_apply (k : Forest → Walk σ β) :
    (getThe Forest >>= k) s f = k f s f := rfl

end Walk

end PixelUnit
