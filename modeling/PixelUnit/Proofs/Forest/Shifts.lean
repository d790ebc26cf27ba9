import PixelUnit.Proofs.Forest.Boundaries

/-!
# Moves and the iterations that run

Nodes are appended, inserted and removed (`Forest.Move`). A move names the children that it starts
from by themselves or by positions from the front (`Move.Forward`). Whether it succeeds or fails on
its way, all iterations that run stay on course: the children that the move does not take keep to
their sides of every boundary (`Move.carries`).
-/

namespace PixelUnit

namespace Edit

variable {α β : Type}

/-- The forest that an action leaves, whether it succeeds or fails. -/
def left (x : Edit α) (f : Forest) : Forest :=
  match x f with
  | .ok _ g => g
  | .error _ g => g

theorem left_ok {x : Edit α} {f g : Forest} {a : α} (h : x f = .ok a g) : x.left f = g := by
  rw [left, h]

theorem left_error {x : Edit α} {f g : Forest} {e : EditError} (h : x f = .error e g) :
    x.left f = g := by
  rw [left, h]

/-- An action in two steps leaves what the second one leaves, if there is one. -/
theorem left_bind_induction {x : Edit α} {k : α → Edit β} {f : Forest} {P : Forest → Prop}
    (hfails : ∀ e g, x f = .error e g → P g) (hgoes : ∀ a g, x f = .ok a g → P ((k a).left g)) :
    P ((x >>= k).left f) := by
  cases hx : x f with
  | ok a g =>
    rw [left, bind_ok hx]
    exact hgoes a g hx
  | error e g =>
    rw [left_error (bind_error hx k)]
    exact hfails e g hx

end Edit

/-- A place is not counted from the end of the children. -/
def Spot.Forward : Spot → Prop
  | .index n => 0 ≤ n
  | .node _ => True

namespace Forest

variable {f g : Forest} {c i : NodeId} {spot : Spot}

/-- What carries all iterations does so step by step. -/
theorem Carries.bind {α β : Type} {inserted taken : List NodeId} {x : Edit α} {k : α → Edit β}
    (hx : Carries inserted taken f (x.left f))
    (hk : ∀ a g, x f = .ok a g → Carries inserted taken g ((k a).left g)) :
    Carries inserted taken f ((x >>= k).left f) := by
  refine Edit.left_bind_induction (P := Carries inserted taken f) (fun e g h => ?_) fun a g h => ?_
  · rwa [Edit.left_error h] at hx
  · rw [Edit.left_ok h] at hx
    exact hx.trans (hk a g h)

/-! ## Removing -/

/-- Looking for a child changes nothing. -/
theorem left_locate (f : Forest) (c : NodeId) (spot : Spot) : (locate c spot).left f = f := by
  cases spot with
  | index n => rfl
  | node i =>
    rw [Edit.left, locate, Edit.get_bind_apply]
    cases (f.childrenOf c).idxOf? i <;> rfl

/-- A place that is not counted from the end resolves to no negative position. -/
theorem locate_nonneg {index : Int} (hspot : spot.Forward) (h : locate c spot f = .ok index g) :
    0 ≤ index := by
  cases spot with
  | index n =>
    cases h
    exact hspot
  | node i => exact ((locate_ok h).2 i rfl).2

/-- A child that is found is taken out. -/
theorem removeChild_of_locate {index : Int} {k : Nat} (hlocate : locate c spot f = .ok index f)
    (hindex : resolveIndex? (f.childrenOf c).length index = some k)
    (hk : (f.childrenOf c)[k]? = some i) :
    removeChild c spot f = .ok () (f.without c k index i) := by
  unfold removeChild
  rw [Edit.bind_ok hlocate, Edit.get_bind_apply, hindex]
  dsimp only
  rw [Edit.bind_ok (Edit.modify_apply _), hk]
  rfl

/-- A place beyond the children is out of range. -/
theorem removeChild_of_none {index : Int} (hlocate : locate c spot f = .ok index f)
    (hindex : resolveIndex? (f.childrenOf c).length index = none) :
    removeChild c spot f = .error .outOfRange f := by
  unfold removeChild
  rw [Edit.bind_ok hlocate, Edit.get_bind_apply, hindex]
  rfl

/-- The child that is removed at a place. -/
def removed (f : Forest) (c : NodeId) : Spot → List NodeId
  | .index n => ((f.childrenOf c)[n.toNat]?).toList
  | .node i => [i]

/-- Removing a child takes that child from all iterations over its container. -/
theorem carries_removeChild (f : Forest) (c : NodeId) (hspot : spot.Forward) :
    Carries [] (f.removed c spot) f ((removeChild c spot).left f) := by
  cases hlocate : locate c spot f with
  | error e g =>
    have hfails : removeChild c spot f = .error e g := Edit.bind_error hlocate _
    rw [Edit.left_error hfails, ← Edit.left_error hlocate, left_locate]
    exact .refl _ _ _
  | ok index g =>
    obtain ⟨rfl, hnode⟩ := locate_ok hlocate
    cases hindex : resolveIndex? (g.childrenOf c).length index with
    | none =>
      rw [Edit.left_error (removeChild_of_none hlocate hindex)]
      exact .refl _ _ _
    | some k =>
      obtain ⟨hlt, hk⟩ := resolveIndex?_eq_some hindex
      have hnonneg := locate_nonneg hspot hlocate
      obtain rfl : (k : Int) = index := by
        have := hk hnonneg
        omega
      obtain ⟨j, hchild⟩ : ∃ j, (g.childrenOf c)[k]? = some j := ⟨_, List.getElem?_eq_getElem hlt⟩
      have hremoved : g.removed c spot = [j] := by
        cases spot with
        | index n =>
          cases hlocate
          rw [removed, Int.toNat_natCast, hchild]
          rfl
        | node i =>
          obtain ⟨hlt', hi, -⟩ := List.idxOf?_eq_some_iff.1 (hnode i rfl).1
          simp only [Int.toNat_natCast] at hi
          rw [List.getElem?_eq_getElem hlt, hi] at hchild
          rw [removed, Option.some.inj hchild]
      rw [Edit.left_ok (removeChild_of_locate hlocate hindex hchild), hremoved]
      refine Carries.trans (.update fun s hs => ?_) (.withParent _ _ _)
      exact Slot.carries_removeAt (by rwa [childrenOf_of_get? hs] at hchild)

/-- Taking a node from its parent carries iterations along, also if it has none. -/
theorem carries_remove (f : Forest) (i : NodeId) : Carries [] [i] f ((remove i).left f) := by
  rw [Edit.left, remove, Edit.get_bind_apply]
  cases f.parentOf i with
  | none => exact .refl _ _ _
  | some p => exact @carries_removeChild (.node i) f p trivial

/-! ## Inserting -/

/-- Handing nodes to a container takes them from where they were. -/
theorem carries_adopt (c : NodeId) : ∀ (new : List NodeId) (f : Forest),
    Carries [] new f ((adopt c new).left f)
  | [], f => .refl _ _ _
  | i :: new, f => by
    unfold adopt
    refine Carries.bind ((carries_remove f i).mono (List.Subset.refl _) (by simp)) fun _ g _ => ?_
    refine Carries.bind (.withParent g i (some c)) fun _ h _ => ?_
    exact (carries_adopt c new h).mono (List.Subset.refl _) (List.subset_cons_self _ _)

theorem carries_append (f : Forest) (c : NodeId) (new : List NodeId) :
    Carries new new f ((append c new).left f) :=
  Carries.bind ((carries_adopt c new f).mono (List.nil_subset _) (List.Subset.refl _))
    fun _ _ _ => .update fun s _ => s.carries_append new

/-- Inserting before a place carries iterations along, also if it fails. -/
theorem carries_insertBefore (f : Forest) (c : NodeId) (new : List NodeId) (hspot : spot.Forward) :
    Carries new new f ((insertBefore c spot new).left f) := by
  refine Carries.bind ((carries_adopt c new f).mono (List.nil_subset _) (List.Subset.refl _))
    fun _ g _ => ?_
  refine Carries.bind (by rw [left_locate]; exact .refl _ _ _) fun index h hlocate => ?_
  obtain ⟨k, rfl⟩ := Int.eq_ofNat_of_zero_le (locate_nonneg hspot hlocate)
  exact .update fun s _ => s.carries_insertBefore k new

/-- Inserting behind a place carries iterations along, also if it fails. -/
theorem carries_insertAfter (f : Forest) (c : NodeId) (new : List NodeId) (hspot : spot.Forward) :
    Carries new new f ((insertAfter c spot new).left f) := by
  refine Carries.bind ((carries_adopt c new f).mono (List.nil_subset _) (List.Subset.refl _))
    fun _ g _ => ?_
  refine Carries.bind (by rw [left_locate]; exact .refl _ _ _) fun index h hlocate => ?_
  obtain ⟨k, rfl⟩ := Int.eq_ofNat_of_zero_le (locate_nonneg hspot hlocate)
  exact .update fun s _ => s.carries_insertBefore (k + 1) new

/-! ## Moves -/

/-- What can be done with nodes during an iteration. -/
inductive Move where
  | append (c : NodeId) (new : List NodeId)
  | insertBefore (c : NodeId) (spot : Spot) (new : List NodeId)
  | insertAfter (c : NodeId) (spot : Spot) (new : List NodeId)
  | remove (i : NodeId)
  | removeChild (c : NodeId) (spot : Spot)

namespace Move

/-- Does a move. -/
def perform : Move → Edit Unit
  | append c new => Forest.append c new
  | insertBefore c spot new => Forest.insertBefore c spot new
  | insertAfter c spot new => Forest.insertAfter c spot new
  | remove i => Forest.remove i
  | removeChild c spot => Forest.removeChild c spot

/-- Existing children are named by themselves or by positions from the front. -/
def Forward : Move → Prop
  | insertBefore _ spot _ | insertAfter _ spot _ | removeChild _ spot => spot.Forward
  | append .. | remove _ => True

/-- The nodes that a move inserts. -/
def inserted : Move → List NodeId
  | append _ new | insertBefore _ _ new | insertAfter _ _ new => new
  | remove _ | removeChild .. => []

/-- The nodes that a move inserts or removes. -/
def taken (f : Forest) : Move → List NodeId
  | append _ new | insertBefore _ _ new | insertAfter _ _ new => new
  | remove i => [i]
  | removeChild c spot => f.removed c spot

/-- A move carries all iterations that run. -/
theorem carries {m : Move} (hm : m.Forward) (f : Forest) :
    Carries m.inserted (m.taken f) f (m.perform.left f) := by
  cases m with
  | append c new => exact carries_append f c new
  | insertBefore c spot new => exact carries_insertBefore f c new hm
  | insertAfter c spot new => exact carries_insertAfter f c new hm
  | remove i => exact carries_remove f i
  | removeChild c spot => exact carries_removeChild f c hm

/-- A move takes nodes from where they were, which leaves `g`, and inserts them in a container so
that `k` of its children come before them. -/
inductive Inserts (f : Forest) (c : NodeId) (new : List NodeId) : Move → Forest → Nat → Prop
  | append {g : Forest} (hadopt : adopt c new f = .ok () g) :
      Inserts f c new (.append c new) g (g.childrenOf c).length
  | insertBefore {g : Forest} {spot : Spot} {k : Nat} (hadopt : adopt c new f = .ok () g)
      (hk : locate c spot g = .ok (k : Int) g) : Inserts f c new (.insertBefore c spot new) g k
  | insertAfter {g : Forest} {spot : Spot} {k : Nat} (hadopt : adopt c new f = .ok () g)
      (hk : locate c spot g = .ok (k : Int) g) : Inserts f c new (.insertAfter c spot new) g (k + 1)

theorem Inserts.adopt_ok {m : Move} {new : List NodeId} {k : Nat} (h : Inserts f c new m g k) :
    adopt c new f = .ok () g := by
  cases h with
  | append hadopt | insertBefore hadopt | insertAfter hadopt => exact hadopt

/-- Nodes inserted up to the position of an iteration are passed, and those behind it are ahead. -/
theorem stands_insertBefore {it : Iteration} {new passed ahead : List NodeId}
    (hs : it.Stands f passed ahead) (k : Nat) :
    (k < passed.length → it.Stands (f.update it.container (·.insertBefore k new))
        (passed.take k ++ new ++ passed.drop k) ahead) ∧
      (passed.length ≤ k → it.Stands (f.update it.container (·.insertBefore k new)) passed
        (ahead.take (k - passed.length) ++ new ++ ahead.drop (k - passed.length))) := by
  obtain ⟨s, hget, hstands⟩ := hs.exists_slot
  have hinserted : (f.update it.container (·.insertBefore k new)).get? it.container =
      some (s.insertBefore k new) := by
    rw [get?_update_self, hget]
    rfl
  exact ⟨fun hk => (Iteration.stands_iff hinserted).2 (hstands.insertBefore_passed new hk),
    fun hk => (Iteration.stands_iff hinserted).2 (hstands.insertBefore_ahead new hk)⟩

/-- What is inserted at the position of an iteration or before it is passed, and what is inserted
behind it is ahead. -/
theorem Inserts.stands {m : Move} {it : Iteration} {new passed ahead : List NodeId} {k : Nat}
    (h : Inserts f it.container new m g k) (hs : it.Stands g passed ahead) :
    (k < passed.length →
        it.Stands (m.perform.left f) (passed.take k ++ new ++ passed.drop k) ahead) ∧
      (passed.length ≤ k → it.Stands (m.perform.left f) passed
        (ahead.take (k - passed.length) ++ new ++ ahead.drop (k - passed.length))) := by
  cases h with
  | append hadopt =>
    have hrun : Forest.append it.container new f = .ok () (g.update it.container fun s =>
        { s with children := s.children ++ new }) := by
      rw [Forest.append, Edit.bind_ok hadopt]
      rfl
    have hlength : (g.childrenOf it.container).length = passed.length + ahead.length := by
      rw [hs.childrenOf_eq, List.length_append]
    refine ⟨fun hk => absurd hk (by omega), fun _ => ?_⟩
    obtain ⟨s, hget, hstands⟩ := hs.exists_slot
    have happended := hstands.append new
    rw [perform, Edit.left_ok hrun, hlength, Nat.add_sub_cancel_left, List.take_length,
      List.drop_length, List.append_nil]
    refine (Iteration.stands_iff ?_).2 happended
    rw [get?_update_self, hget]
    rfl
  | @insertBefore _ spot k hadopt hk =>
    have hrun : Forest.insertBefore it.container spot new f =
        .ok () (g.update it.container (·.insertBefore k new)) := by
      rw [Forest.insertBefore, Edit.bind_ok hadopt, Edit.bind_ok hk]
      rfl
    rw [perform, Edit.left_ok hrun]
    exact stands_insertBefore hs k
  | @insertAfter _ spot k hadopt hk =>
    have hrun : Forest.insertAfter it.container spot new f =
        .ok () (g.update it.container (·.insertBefore (k + 1 : Nat) new)) := by
      rw [Forest.insertAfter, Edit.bind_ok hadopt, Edit.bind_ok hk]
      rfl
    rw [perform, Edit.left_ok hrun]
    exact stands_insertBefore hs (k + 1)

end Move

end Forest

end PixelUnit
