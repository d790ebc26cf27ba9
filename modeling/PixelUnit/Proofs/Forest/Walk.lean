import PixelUnit.Proofs.Forest.Actions
import PixelUnit.Proofs.Forest.Visits

/-!
# Walks that keep a forest in shape

A walk whose visits keep parents and children as they are (`Forest.Kept`) visits what
`Forest.visitsOf` lists, in that order, and leaves all cursors as they were. What a visit does
beyond that is up to an invariant of the nodes visited so far: if every visit hands it on, the walk
does, until one of them stops it or fails (`Consistent.walk_visitsOf`). The invariant must not look
at cursors, so it is stated of the forest without them (`Forest.plain`).
-/

namespace PixelUnit

open Sheet

namespace Slot

/-- The node without the bookkeeping of iterations. -/
def plain (s : Slot) : Slot :=
  { s with cursors := [], lastKey := 0 }

/-- Where the node hangs, and what hangs from it. -/
def shape (s : Slot) : Option NodeId × List NodeId × Bool :=
  (s.parent, s.children, s.content.isContainer)

/-- The node `t` has its place and its cursors from `s`. -/
structure Keeps (s t : Slot) : Prop where
  shape : t.shape = s.shape
  cursors : t.cursors = s.cursors
  lastKey_le : s.lastKey ≤ t.lastKey

/-- A node with its cursors is what is left without the bookkeeping of iterations, but for the keys
it gave out. -/
theorem eq_of_plain {s t : Slot} {content : Content}
    (h : t.plain = { s.plain with content := content }) (hcursors : t.cursors = s.cursors) :
    t = { s with content := content, lastKey := t.lastKey } := by
  cases s
  cases t
  simp only [plain, Slot.mk.injEq] at h hcursors ⊢
  obtain ⟨hcontent, hraws, hparent, hchildren, -, -, hextras⟩ := h
  exact ⟨hcontent, hraws, hparent, hchildren, hcursors, trivial, hextras⟩

/-- A node with a cursor of its own at position `n`. -/
def startCursorAt (s : Slot) (n : Nat) : Slot :=
  { s with cursors := s.cursors ++ [⟨s.lastKey + 1, n⟩], lastKey := s.lastKey + 1 }

end Slot

namespace Forest

variable {f g h : Forest} {c i : NodeId}

/-- The forest without the bookkeeping of iterations. -/
def plain (f : Forest) : Forest :=
  ⟨f.slots.map Slot.plain⟩

theorem get?_plain (f : Forest) (i : NodeId) : f.plain.get? i = (f.get? i).map Slot.plain :=
  Array.getElem?_map ..

theorem plain_plain (f : Forest) : f.plain.plain = f.plain := by
  unfold plain
  rw [Array.map_map]
  rfl

theorem size_plain (f : Forest) : f.plain.size = f.size :=
  Array.size_map

theorem contentOf_plain (f : Forest) (i : NodeId) : f.plain.contentOf i = f.contentOf i := by
  unfold contentOf
  rw [get?_plain, Option.map_map]
  rfl

theorem childrenOf_plain (f : Forest) (c : NodeId) : f.plain.childrenOf c = f.childrenOf c := by
  unfold childrenOf
  rw [get?_plain, Option.map_map]
  rfl

theorem parentOf_plain (f : Forest) (i : NodeId) : f.plain.parentOf i = f.parentOf i := by
  unfold parentOf
  rw [get?_plain]
  cases f.get? i <;> rfl

/-- What a forest reads as does not depend on the bookkeeping of iterations. -/
theorem viewTo_plain (f : Forest) : ∀ depth i, f.plain.viewTo depth i = f.viewTo depth i
  | 0, _ => rfl
  | depth + 1, i => by
    rw [viewTo, viewTo, get?_plain]
    cases f.get? i with
    | none => rfl
    | some t =>
      have hrec : f.plain.viewTo depth = f.viewTo depth := funext (viewTo_plain f depth)
      rw [Option.map_some, hrec]
      rfl

/-- Parents, children and kinds of nodes are the same. -/
def SameShape (f g : Forest) : Prop :=
  ∀ i, (g.get? i).map Slot.shape = (f.get? i).map Slot.shape

/-- Every node of `g` has its place and its cursors from `f`. -/
def Kept (f g : Forest) : Prop :=
  ∀ i, Option.Rel Slot.Keeps (f.get? i) (g.get? i)

/-- Nodes that were kept have their cursors, and keys are only ever given out. -/
theorem Kept.rel {R : Slot → Slot → Prop} (hkept : Kept f g) (hR : ∀ {i : NodeId} {s t : Slot},
    f.get? i = some s → g.get? i = some t → t.cursors = s.cursors → s.lastKey ≤ t.lastKey → R s t)
    (i : NodeId) : Option.Rel R (f.get? i) (g.get? i) := by
  have hrel := hkept i
  generalize hf : f.get? i = a, hg : g.get? i = b at hrel
  cases hrel with
  | none => exact .none
  | some h => exact .some (hR hf hg h.cursors h.lastKey_le)

/-- Forests with the same slots are the same. -/
theorem ext_get? (h : ∀ i, f.get? i = g.get? i) : f = g := by
  cases f
  cases g
  exact congrArg Forest.mk (Array.ext_getElem? h)

theorem size_update (f : Forest) (i : NodeId) (a : Slot → Slot) : (f.update i a).size = f.size :=
  Array.size_modify

theorem size_add (f : Forest) (t : Slot) : (f.add t).2.size = f.size + 1 :=
  Array.size_push ..

theorem get?_update_self (f : Forest) (c : NodeId) (a : Slot → Slot) :
    (f.update c a).get? c = (f.get? c).map a := by
  rw [get?_update, if_pos rfl]

theorem get?_update_of_ne (a : Slot → Slot) (h : c ≠ i) : (f.update c a).get? i = f.get? i := by
  rw [get?_update, if_neg h]

theorem update_id (f : Forest) (c : NodeId) : f.update c (fun s => s) = f := by
  refine ext_get? fun i => ?_
  rw [get?_update]
  split
  · exact Option.map_id'
  · rfl

/-- A change of the bookkeeping alone is not seen without it. -/
theorem plain_update {a : Slot → Slot} (h : ∀ s, (a s).plain = s.plain) :
    (f.update c a).plain = f.plain := by
  refine ext_get? fun i => ?_
  rw [get?_plain, get?_plain, get?_update]
  split
  · rw [Option.map_map]
    exact Option.map_congr fun s _ => h s
  · rfl

/-! ## The same shape -/

theorem childrenOf_eq_shape (f : Forest) (c : NodeId) :
    f.childrenOf c = (((f.get? c).map Slot.shape).map fun t => t.2.1).getD [] := by
  unfold childrenOf
  cases f.get? c <;> rfl

theorem parentOf_eq_shape (f : Forest) (i : NodeId) :
    f.parentOf i = ((f.get? i).map Slot.shape).bind Prod.fst := by
  unfold parentOf
  cases f.get? i <;> rfl

theorem isContainer_eq_shape (f : Forest) (i : NodeId) :
    f.isContainer i = ((f.get? i).map Slot.shape).any fun t => t.2.2 := by
  unfold isContainer contentOf
  cases f.get? i <;> rfl

namespace SameShape

theorem refl (f : Forest) : SameShape f f := fun _ => rfl

theorem lt_size (h : SameShape f g) {c : NodeId} (hc : c < f.size) : c < g.size := by
  obtain ⟨s, hs⟩ := get?_eq_some_of_lt hc
  have hslot := h c
  rw [hs] at hslot
  obtain ⟨t, ht, -⟩ := Option.map_eq_some_iff.1 hslot
  exact lt_size_of_get? ht

theorem trans (hfg : SameShape f g) (hgh : SameShape g h) : SameShape f h := fun i =>
  (hgh i).trans (hfg i)

theorem childrenOf (hfg : SameShape f g) (c : NodeId) : g.childrenOf c = f.childrenOf c := by
  rw [childrenOf_eq_shape, childrenOf_eq_shape, hfg c]

theorem parentOf (hfg : SameShape f g) (i : NodeId) : g.parentOf i = f.parentOf i := by
  rw [parentOf_eq_shape, parentOf_eq_shape, hfg i]

theorem isContainer (hfg : SameShape f g) (i : NodeId) : g.isContainer i = f.isContainer i := by
  rw [isContainer_eq_shape, isContainer_eq_shape, hfg i]

/-- What lies below what depends on the shape only. -/
theorem isBelow_iff (hfg : SameShape f g) {i c : NodeId} : g.IsBelow i c ↔ f.IsBelow i c := by
  have hlinks : g.HangsFrom = f.HangsFrom := by
    funext i c
    unfold HangsFrom
    rw [hfg.parentOf]
  unfold IsBelow
  rw [hlinks]

/-- A forest with the shape of a consistent one is consistent if its keys were given out. -/
theorem consistent (hfg : SameShape f g) (hf : f.Consistent) (hkeys : g.KeysGiven) :
    g.Consistent where
  mem_childrenOf_iff i c := by
    rw [hfg.childrenOf, hfg.parentOf]
    exact hf.mem_childrenOf_iff i c
  nodup_childrenOf c := by
    rw [hfg.childrenOf]
    exact hf.nodup_childrenOf c
  isContainer_of_mem i c := by
    rw [hfg.childrenOf, hfg.isContainer]
    exact hf.isContainer_of_mem i c
  acyclic i := by
    rw [hfg.isBelow_iff]
    exact hf.acyclic i
  keysGiven := hkeys

end SameShape

/-! ## Keeping nodes in place -/

namespace Kept

theorem refl (f : Forest) : Kept f f := by
  intro i
  cases f.get? i with
  | none => exact .none
  | some s => exact .some ⟨rfl, rfl, Nat.le_refl _⟩

/-- What keeps places and cursors twice keeps them. -/
theorem trans (hfg : Kept f g) (hgh : Kept g h) : Kept f h := by
  intro i
  have h₁ := hfg i
  have h₂ := hgh i
  generalize f.get? i = a at h₁
  generalize g.get? i = b at h₁ h₂
  generalize h.get? i = d at h₂
  cases h₁ with
  | none => exact h₂
  | some h₁ =>
    cases h₂ with
    | some h₂ =>
      exact .some ⟨h₂.shape.trans h₁.shape, h₂.cursors.trans h₁.cursors,
        h₁.lastKey_le.trans h₂.lastKey_le⟩

/-- What keeps all places keeps the shape. -/
theorem sameShape (hfg : Kept f g) : SameShape f g := by
  intro i
  have h₁ := hfg i
  generalize f.get? i = a at h₁
  generalize g.get? i = b at h₁
  cases h₁ with
  | none => rfl
  | some h₁ => exact congrArg some h₁.shape

/-- What keeps all cursors keeps their keys among those given out. -/
theorem keysGiven (hfg : Kept f g) (hf : f.KeysGiven) : g.KeysGiven := by
  intro i t ht k hk
  have h₁ := hfg i
  rw [ht] at h₁
  generalize hs : f.get? i = a at h₁
  cases h₁ with
  | some h₁ =>
    rw [h₁.cursors] at hk
    exact (hf i _ hs k hk).trans h₁.lastKey_le

/-- What is kept in place stays consistent. -/
theorem consistent (hfg : Kept f g) (hf : f.Consistent) : g.Consistent :=
  hfg.sameShape.consistent hf (hfg.keysGiven hf.keysGiven)

/-- Changes of one node that fit together keep the nodes in place. -/
theorem update {a a' b : Slot → Slot} (hfg : Kept (f.update c a) g)
    (hab : ∀ s t, f.get? c = some s → (a s).Keeps t → (a' s).Keeps (b t)) :
    Kept (f.update c a') (g.update c b) := by
  intro i
  have h₁ := hfg i
  by_cases hi : c = i
  · subst hi
    rw [get?_update_self] at h₁ ⊢
    rw [get?_update_self]
    generalize hs : f.get? c = s at h₁
    generalize g.get? c = t at h₁
    cases s with
    | none =>
      cases h₁
      exact .none
    | some s =>
      cases h₁ with
      | some h₁ => exact .some (hab s _ hs h₁)
  · rw [get?_update_of_ne _ hi] at h₁ ⊢
    rw [get?_update_of_ne _ hi]
    exact h₁

end Kept

end Forest

/-! ## The cursor of an iteration -/

namespace Slot

variable {s t : Slot} {n : Nat}

/-- No cursor has a key that was not given out. -/
theorem key_beq_eq_false (hs : ∀ c ∈ s.cursors, c.key ≤ s.lastKey) :
    ∀ c ∈ s.cursors, (c.key == s.lastKey + 1) = false := by
  intro c hc
  rw [beq_eq_false_iff_ne]
  have := hs c hc
  omega

/-- A slot that keeps its cursors keeps the position of the one that was started last. -/
theorem cursor?_eq_of_keeps (hs : ∀ c ∈ s.cursors, c.key ≤ s.lastKey)
    (h : (s.startCursorAt n).Keeps t) : t.cursor? (s.lastKey + 1) = some (n : Int) := by
  unfold cursor?
  rw [h.cursors, startCursorAt, List.find?_append, List.find?_eq_none.2]
  · simp
  · intro c hc
    rw [key_beq_eq_false hs c hc]
    exact Bool.false_ne_true

/-- If a slot keeps its cursors, moving the last one on moves it on from where it was. -/
theorem keeps_advanceCursor (hs : ∀ c ∈ s.cursors, c.key ≤ s.lastKey)
    (h : (s.startCursorAt n).Keeps t) :
    (s.startCursorAt (n + 1)).Keeps (t.advanceCursor (s.lastKey + 1)) := by
  refine ⟨h.shape, ?_, h.lastKey_le⟩
  have hold : s.cursors.map (fun c => if c.key == s.lastKey + 1 then
      { c with position := c.position + 1 } else c) = s.cursors := by
    conv_rhs => rw [← List.map_id' s.cursors]
    refine List.map_congr_left fun c hc => ?_
    rw [key_beq_eq_false hs c hc]
    rfl
  unfold advanceCursor
  rw [h.cursors]
  show List.map _ (s.cursors ++ [_]) = s.cursors ++ [_]
  rw [List.map_append, hold]
  simp

/-- If a slot keeps its cursors, taking the last one away restores the ones before. -/
theorem keeps_endCursor (hs : ∀ c ∈ s.cursors, c.key ≤ s.lastKey)
    (h : (s.startCursorAt n).Keeps t) : s.Keeps (t.endCursor (s.lastKey + 1)) := by
  refine ⟨h.shape, ?_, (Nat.le_succ _).trans h.lastKey_le⟩
  have hold : s.cursors.filter (·.key != s.lastKey + 1) = s.cursors := by
    refine List.filter_eq_self.2 fun c hc => ?_
    rw [bne, key_beq_eq_false hs c hc]
    rfl
  unfold endCursor
  rw [h.cursors]
  show List.filter _ (s.cursors ++ [_]) = s.cursors
  rw [List.filter_append, hold]
  simp

end Slot

/-! ## How an action ends -/

section Ends

variable {σ α β : Type} {s : σ} {g : Forest} {E : EditError → Forest → Prop}

/-- How an action ends that leaves a forest with `K`: what it returns and leaves satisfies `R`, or
it fails, and what it fails with and leaves satisfies `E`. -/
inductive Walk.EndsIn (K : Forest → Prop) (x : Walk σ α) (s : σ) (g : Forest)
    (E : EditError → Forest → Prop) (R : α → σ → Forest → Prop) : Prop
  | returns {a : α} {s' : σ} {g' : Forest} (hrun : x s g = .ok (a, s') g') (hK : K g')
      (hR : R a s' g'.plain)
  | fails {e : EditError} {g' : Forest} (hrun : x s g = .error e g') (hK : K g')
      (hE : E e g'.plain)

/-- How an action ends that keeps all nodes in place. -/
abbrev Walk.Ends (x : Walk σ α) (s : σ) (g : Forest) (E : EditError → Forest → Prop)
    (R : α → σ → Forest → Prop) : Prop :=
  x.EndsIn (Forest.Kept g) s g E R

/-- Actions that keep all nodes in place, one behind the other. -/
theorem Walk.Ends.bind {x : Walk σ α} {k : α → Walk σ β} {R : α → σ → Forest → Prop}
    {R' : β → σ → Forest → Prop} (hx : x.Ends s g E R)
    (hk : ∀ a s' g', Forest.Kept g g' → R a s' g'.plain → (k a).Ends s' g' E R') :
    (x >>= k).Ends s g E R' := by
  cases hx with
  | fails hrun hkept hE => exact .fails (Walk.bind_error hrun k) hkept hE
  | returns hrun hkept hR =>
    have hbind := Walk.bind_ok hrun k
    cases hk _ _ _ hkept hR with
    | returns hrun' hkept' hR' => exact .returns (hbind.trans hrun') (hkept.trans hkept') hR'
    | fails hrun' hkept' hE => exact .fails (hbind.trans hrun') (hkept.trans hkept') hE

theorem Walk.Ends.pure {a : α} {R : α → σ → Forest → Prop} (h : R a s g.plain) :
    Walk.Ends (Pure.pure a) s g E R :=
  .returns rfl (Forest.Kept.refl g) h

/-- Reading the forest changes nothing. -/
theorem Walk.Ends.getThe {k : Forest → Walk σ β} {R : β → σ → Forest → Prop}
    (h : (k g).Ends s g E R) : Walk.Ends (MonadStateOf.get >>= k) s g E R := by
  cases h with
  | returns hrun hkept hR => exact .returns hrun hkept hR
  | fails hrun hkept hE => exact .fails hrun hkept hE

end Ends

namespace Forest

variable {σ : Type} {f g : Forest} {c i : NodeId}

/-- The key that the next cursor on a container gets. -/
def nextKey (f : Forest) (c : NodeId) : Nat :=
  ((f.get? c).map Slot.lastKey).getD 0 + 1

/-- The child at a position of a container is found there. -/
theorem childAt_apply {n : Nat} (h : (g.childrenOf c)[n]? = some i) :
    childAt c n g = .ok i g := by
  have hn : n < (g.childrenOf c).length := (List.getElem?_eq_some_iff.1 h).1
  have hresolve : resolveIndex? (g.childrenOf c).length n = some n := by
    unfold resolveIndex?
    have h0 : ¬(n : Int) < 0 := by omega
    simp only [if_neg h0]
    simp [hn]
  unfold childAt
  rw [Edit.get_bind_apply, hresolve, Option.bind_some, h]
  rfl

/-- While a container is visited and its cursor is at position `n`, that is where it is found. -/
theorem cursor_of_kept {n : Nat} (hf : f.KeysGiven) (hc : c < f.size)
    (h : Kept (f.update c (·.startCursorAt n)) g) :
    ((g.get? c).bind (·.cursor? (f.nextKey c))).getD 0 = (n : Int) := by
  obtain ⟨s, hs⟩ := get?_eq_some_of_lt hc
  have hrel := h c
  unfold nextKey
  rw [get?_update_self, hs] at hrel
  rw [hs]
  generalize g.get? c = t at hrel
  cases hrel with
  | some hrel =>
    show (Slot.cursor? _ (s.lastKey + 1)).getD 0 = (n : Int)
    rw [Slot.cursor?_eq_of_keeps (hf c s hs) hrel]
    rfl

/-- Starting an iteration does not change the shape. -/
theorem sameShape_startCursorAt (f : Forest) (c : NodeId) (n : Nat) :
    SameShape f (f.update c (·.startCursorAt n)) := by
  intro i
  rw [get?_update]
  split
  · rw [Option.map_map]
    rfl
  · rfl

/-- Starting an iteration gives its key out. -/
theorem KeysGiven.startCursorAt (hf : f.KeysGiven) (c : NodeId) (n : Nat) :
    (f.update c (·.startCursorAt n)).KeysGiven := by
  intro i t ht k hk
  rw [get?_update] at ht
  split at ht
  · obtain ⟨s, hs, rfl⟩ := Option.map_eq_some_iff.1 ht
    rcases List.mem_append.1 hk with hk | hk
    · exact (hf i s hs k hk).trans (Nat.le_succ _)
    · rw [List.mem_singleton.1 hk]
      exact Nat.le_refl _
  · exact hf i t ht k hk

theorem plain_startCursor (f : Forest) (c : NodeId) :
    (f.update c Slot.startCursor).plain = f.plain :=
  plain_update fun _ => rfl

theorem plain_advanceCursor (f : Forest) (c : NodeId) (key : Nat) :
    (f.update c (·.advanceCursor key)).plain = f.plain :=
  plain_update fun _ => rfl

theorem plain_endCursor (f : Forest) (c : NodeId) (key : Nat) :
    (f.update c (·.endCursor key)).plain = f.plain :=
  plain_update fun _ => rfl

/-! ## One container -/

section Each

variable {e : Forest} {visit : Visit σ} {P : List NodeId → σ → Forest → Prop}
  {S : σ → Forest → Prop} {E : EditError → Forest → Prop}

/-- What is known when an iteration ends: all children were visited, or some visit stopped it. -/
def AtEnd (P S : σ → Forest → Prop) : Bool → σ → Forest → Prop
  | true => P
  | false => S

/-- What is known after a visit: the iteration goes on, or the visit stopped it. -/
def AfterVisit (P S : σ → Forest → Prop) : Verdict → σ → Forest → Prop
  | .proceed => P
  | .stop => S

/-- Every visit of a child hands `P` on to the next one, or stops with `S`, or fails with `E`. -/
def HandsOn (e : Forest) (visit : Visit σ) (c : NodeId) (P : List NodeId → σ → Forest → Prop)
    (S : σ → Forest → Prop) (E : EditError → Forest → Prop) : Prop :=
  ∀ before i rest, e.childrenOf c = before ++ i :: rest → ∀ s g, SameShape e g → g.KeysGiven →
    P before s g.plain →
      (visit i before.length).Ends s g E (AfterVisit (P (before ++ [i])) S)

/-- An iteration that has visited all children ends. -/
theorem eachFrom_nil {bound key : Nat} {s : σ} {n : Nat}
    (hcursor : ((g.get? c).bind (·.cursor? key)).getD 0 = (n : Int))
    (hn : (g.childrenOf c).length ≤ n) :
    eachFrom visit c key (bound + 1) s g = .ok (true, s) g := by
  rw [eachFrom, Walk.getThe_bind_apply, hcursor]
  have hnot : ¬(n : Int) < (g.childrenOf c).length := by omega
  simp only [hnot, if_false]
  rfl

section Cons

variable {bound key n : Nat} {s s' : σ} {g' : Forest}

/-- An iteration whose cursor is at a child visits that child, and goes on if it may. -/
theorem eachFrom_visit {position : Int}
    (hcursor : ((g.get? c).bind (·.cursor? key)).getD 0 = position)
    (hlt : position < (g.childrenOf c).length) (hchild : childAt c position g = .ok i g) :
    eachFrom visit c key (bound + 1) s g = (visit i position >>= fun v =>
      match v with
      | .stop => pure false
      | .proceed => do
        modifyThe Forest fun f => f.update c (·.advanceCursor key)
        eachFrom visit c key bound) s g := by
  rw [eachFrom, Walk.getThe_bind_apply, hcursor]
  simp only [hlt, if_true]
  exact Walk.lift_bind_ok hchild _

/-- A visit of the next child, and what the iteration does then. -/
theorem eachFrom_cons {v : Verdict}
    (hcursor : ((g.get? c).bind (·.cursor? key)).getD 0 = (n : Int))
    (hi : (g.childrenOf c)[n]? = some i) (hvisit : visit i n s g = .ok (v, s') g') :
    eachFrom visit c key (bound + 1) s g =
      match v with
      | .stop => .ok (false, s') g'
      | .proceed => eachFrom visit c key bound s' (g'.update c (·.advanceCursor key)) := by
  have hlt : (n : Int) < (g.childrenOf c).length :=
    Int.ofNat_lt.2 (List.getElem?_eq_some_iff.1 hi).1
  rw [eachFrom_visit hcursor hlt (childAt_apply hi), Walk.bind_ok hvisit]
  cases v <;> rfl

/-- An iteration ends with the failure of a visit. -/
theorem eachFrom_cons_error {e : EditError}
    (hcursor : ((g.get? c).bind (·.cursor? key)).getD 0 = (n : Int))
    (hi : (g.childrenOf c)[n]? = some i) (hvisit : visit i n s g = .error e g') :
    eachFrom visit c key (bound + 1) s g = .error e g' := by
  have hlt : (n : Int) < (g.childrenOf c).length :=
    Int.ofNat_lt.2 (List.getElem?_eq_some_iff.1 hi).1
  exact (eachFrom_visit hcursor hlt (childAt_apply hi)).trans (Walk.bind_error hvisit _)

end Cons

/-- The children still to be visited are what the iteration runs over. -/
theorem eachFrom_ends (he : e.KeysGiven) (hc : c < e.size) (hvisit : HandsOn e visit c P S E) :
    ∀ (rest before : List NodeId) (bound : Nat) (s : σ) (g : Forest),
      e.childrenOf c = before ++ rest → rest.length < bound →
      Kept (e.update c (·.startCursorAt before.length)) g → P before s g.plain →
      (eachFrom visit c (e.nextKey c) bound).EndsIn
        (fun g' => ∃ n, Kept (e.update c (·.startCursorAt n)) g') s g E
        (AtEnd (P (e.childrenOf c)) S)
  | _, _, 0, _, _, _, hbound, _, _ => absurd hbound (Nat.not_lt_zero _)
  -- No child is left: the cursor is behind the last one, and the iteration ends.
  | [], before, bound + 1, s, g, hchildren, _, hkept, hP => by
    have hcursor := cursor_of_kept he hc hkept
    have hlength : (g.childrenOf c).length ≤ before.length := by
      rw [hkept.sameShape.childrenOf, (sameShape_startCursorAt e c _).childrenOf, hchildren,
        List.append_nil]
    refine .returns (eachFrom_nil hcursor hlength) ⟨before.length, hkept⟩ ?_
    rw [hchildren, List.append_nil]
    exact hP
  -- The next child has its turn, which may fail, stop the iteration or let it go on.
  | i :: rest, before, bound + 1, s, g, hchildren, hbound, hkept, hP => by
    have hcursor := cursor_of_kept he hc hkept
    have hshape : SameShape e g := (sameShape_startCursorAt e c _).trans hkept.sameShape
    have hi : (g.childrenOf c)[before.length]? = some i := by
      rw [hshape.childrenOf, hchildren, List.getElem?_append_right (Nat.le_refl _), Nat.sub_self]
      rfl
    cases hvisit before i rest hchildren s g hshape (hkept.keysGiven (he.startCursorAt c _)) hP with
    | fails hrun hkept₁ hE =>
      exact .fails (eachFrom_cons_error hcursor hi hrun) ⟨before.length, hkept.trans hkept₁⟩ hE
    | @returns v s₁ g₁ hrun hkept₁ hR =>
      cases v with
      | stop =>
        exact .returns (eachFrom_cons hcursor hi hrun) ⟨before.length, hkept.trans hkept₁⟩ hR
      | proceed =>
        -- If it goes on, the cursor is moved on from where it was before the visit.
        have hadvanced : Kept (e.update c (·.startCursorAt (before ++ [i]).length))
            (g₁.update c (·.advanceCursor (e.nextKey c))) := by
          refine (hkept.trans hkept₁).update fun s t hs hst => ?_
          rw [List.length_append, nextKey, hs]
          exact Slot.keeps_advanceCursor (he c s hs) hst
        have hnext := eachFrom_ends he hc hvisit rest (before ++ [i]) bound s₁ _
          (by rw [hchildren, List.append_assoc]; rfl) (by rw [List.length_cons] at hbound; omega)
          hadvanced (by rw [plain_advanceCursor]; exact hR)
        cases hnext with
        | returns hrun' hkept' hend =>
          exact .returns ((eachFrom_cons hcursor hi hrun).trans hrun') hkept' hend
        | fails hrun' hkept' hE =>
          exact .fails ((eachFrom_cons hcursor hi hrun).trans hrun') hkept' hE

/-- An iteration that ends takes its cursor away. -/
theorem each_of_ok {bound : Nat} {s s' : σ} {b : Bool} {g' : Forest}
    (h : eachFrom visit c (g.nextKey c) bound s (g.update c Slot.startCursor) = .ok (b, s') g') :
    each bound visit c s g = .ok (b, s') (g'.update c (·.endCursor (g.nextKey c))) := by
  unfold nextKey at h ⊢
  unfold each withCursor
  dsimp only
  rw [h]

/-- An iteration that fails takes its cursor away. -/
theorem each_of_error {bound : Nat} {s : σ} {e : EditError} {g' : Forest}
    (h : eachFrom visit c (g.nextKey c) bound s (g.update c Slot.startCursor) = .error e g') :
    each bound visit c s g = .error e (g'.update c (·.endCursor (g.nextKey c))) := by
  unfold nextKey at h ⊢
  unfold each withCursor
  dsimp only
  rw [h]

/-- When its cursor is dropped, nothing is left of an iteration. -/
theorem Kept.endCursor {n : Nat} {g' : Forest} (hg : g.KeysGiven)
    (h : Kept (g.update c (·.startCursorAt n)) g') :
    Kept g (g'.update c (·.endCursor (g.nextKey c))) := by
  rw [← update_id g c]
  refine h.update fun s t hs hst => ?_
  rw [update_id, nextKey, hs]
  exact Slot.keeps_endCursor (hg c s hs) hst

/-- An iteration over a container hands `P` on from child to child, or stops with `S`, or fails
with `E`. -/
theorem each_ends {bound : Nat} {s : σ} (hg : g.KeysGiven) (hc : c < g.size)
    (hbound : (g.childrenOf c).length < bound) (hvisit : HandsOn g visit c P S E)
    (hP : P [] s g.plain) :
    (each bound visit c).Ends s g E (AtEnd (P (g.childrenOf c)) S) := by
  have hstart : Kept (g.update c (·.startCursorAt 0)) (g.update c Slot.startCursor) := Kept.refl _
  cases eachFrom_ends hg hc hvisit (g.childrenOf c) [] bound s (g.update c Slot.startCursor) rfl
    hbound hstart (by rw [plain_startCursor]; exact hP) with
  | returns hrun hkept hend =>
    obtain ⟨n, hkept⟩ := hkept
    exact .returns (each_of_ok hrun) (hkept.endCursor hg) (by rw [plain_endCursor]; exact hend)
  | fails hrun hkept hE =>
    obtain ⟨n, hkept⟩ := hkept
    exact .fails (each_of_error hrun) (hkept.endCursor hg) (by rw [plain_endCursor]; exact hE)

end Each

/-! ## All levels -/

section Walk

variable {visit : Visit σ} {visits : List (NodeId × Nat)}
  {I : List (NodeId × Nat) → σ → Forest → Prop} {S : σ → Forest → Prop}
  {E : EditError → Forest → Prop}

/-- Every visit of a walk hands the invariant on to the next one, or stops with `S`, or fails with
`E`. -/
def HandsOnBelow (f : Forest) (visit : Visit σ) (visits : List (NodeId × Nat))
    (I : List (NodeId × Nat) → σ → Forest → Prop) (S : σ → Forest → Prop)
    (E : EditError → Forest → Prop) : Prop :=
  ∀ (done : List (NodeId × Nat)) (i : NodeId) (n : Nat), done ++ [(i, n)] <+: visits →
    ∀ s g, SameShape f g → g.KeysGiven → I done s g.plain →
      (visit i n).Ends s g E (AfterVisit (I (done ++ [(i, n)])) S)

/-- The visits below some of the children of a container. -/
def visitsAt (f : Forest) (depth : Nat) (before : List NodeId) : List (NodeId × Nat) :=
  before.zipIdx.flatMap fun p => p :: f.visitsTo depth p.1

/-- The visits below one child more are that child and the visits below it. -/
theorem visitsAt_concat (f : Forest) (depth : Nat) (before : List NodeId) (i : NodeId) :
    f.visitsAt depth (before ++ [i]) =
      f.visitsAt depth before ++ (i, before.length) :: f.visitsTo depth i := by
  unfold visitsAt
  rw [List.zipIdx_append, List.flatMap_append]
  simp

/-- The visits below the first children come first. -/
theorem visitsAt_isPrefix (f : Forest) (depth : Nat) (before rest : List NodeId) :
    f.visitsAt depth before <+: f.visitsAt depth (before ++ rest) := by
  unfold visitsAt
  rw [List.zipIdx_append, List.flatMap_append]
  exact List.prefix_append _ _

/-- The visits up to those below a child of a container. -/
theorem visits_upTo {f : Forest} {depth : Nat} {done visits : List (NodeId × Nat)}
    {before rest : List NodeId} {i : NodeId}
    (h : done ++ f.visitsAt depth (before ++ i :: rest) <+: visits) :
    done ++ f.visitsAt depth (before ++ [i]) =
        done ++ f.visitsAt depth before ++ [(i, before.length)] ++ f.visitsTo depth i ∧
      done ++ f.visitsAt depth before ++ [(i, before.length)] ++ f.visitsTo depth i <+:
        visits := by
  have hvisits : done ++ f.visitsAt depth (before ++ [i]) =
      done ++ f.visitsAt depth before ++ [(i, before.length)] ++ f.visitsTo depth i := by
    rw [visitsAt_concat]
    simp
  refine ⟨hvisits, List.IsPrefix.trans ?_ h⟩
  rw [← hvisits, List.append_cons before i rest]
  exact (List.prefix_append_right_inj done).2 (visitsAt_isPrefix f depth _ _)

/-- A walk hands the invariant on over all nodes below a container, or stops with `S`, or fails with
`E`. -/
theorem Consistent.walk_ends (hf : f.Consistent) {bound : Nat} (hbound : f.size < bound)
    (hvisit : HandsOnBelow f visit visits I S E) :
    ∀ (depth : Nat) (c : NodeId) (done : List (NodeId × Nat)) (s : σ) (g : Forest),
      f.EndsWithin depth c → c < f.size → done ++ f.visitsTo depth c <+: visits →
      SameShape f g → g.KeysGiven → I done s g.plain →
      (walk bound visit depth c).Ends s g E (AtEnd (I (done ++ f.visitsTo depth c)) S)
  | 0, _, _, _, _, hdepth, _, _, _, _, _ => absurd hdepth.pos (Nat.lt_irrefl 0)
  | depth + 1, c, done, s, g, hdepth, hc, hpre, hshape, hkeys, hI => by
    have hlength : (g.childrenOf c).length < bound := by
      rw [hshape.childrenOf]
      exact (hf.length_childrenOf_le c).trans_lt hbound
    have hchildren : f.visitsTo (depth + 1) c = f.visitsAt depth (g.childrenOf c) := by
      rw [hshape.childrenOf]
      rfl
    rw [hchildren] at hpre ⊢
    unfold walk
    -- The visits of the children, one after the other; what is visited below each of them counts as
    -- visited with it.
    refine each_ends (P := fun before => I (done ++ f.visitsAt depth before)) hkeys
      (hshape.lt_size hc) hlength ?_ (by simpa [visitsAt] using hI)
    intro before i rest hsplit s₁ g₁ hshape₁ hkeys₁ hI₁
    have hshape₂ : SameShape f g₁ := hshape.trans hshape₁
    have hi : f.HangsFrom i c := by
      refine (hf.mem_childrenOf_iff i c).1 ?_
      rw [← hshape.childrenOf, hsplit]
      exact List.mem_append_right _ List.mem_cons_self
    rw [hsplit] at hpre
    obtain ⟨hvisits, hdone⟩ := visits_upTo hpre
    have hfirst : done ++ f.visitsAt depth before ++ [(i, before.length)] <+: visits :=
      (List.prefix_append _ _).trans hdone
    simp only [hvisits]
    -- First the visit of the child itself, and then those below it, if it is a container by then.
    refine (hvisit _ i before.length hfirst s₁ g₁ hshape₂ hkeys₁ hI₁).bind ?_
    rintro (_ | _) s₂ g₂ hkept₂ hR
    · have hshape₃ : SameShape f g₂ := hshape₂.trans hkept₂.sameShape
      have hkeys₂ : g₂.KeysGiven := hkept₂.keysGiven hkeys₁
      refine Walk.Ends.getThe ?_
      rw [hshape₃.isContainer]
      cases hcontainer : f.isContainer i with
      | true =>
        refine (hf.walk_ends hbound hvisit depth i _ s₂ g₂ (hdepth.child hi)
          (hf.lt_size_of_hangsFrom hi).1 hdone hshape₃ hkeys₂ hR).bind ?_
        rintro (_ | _) s₃ g₃ hkept₃ hR₃
        · exact Walk.Ends.pure hR₃
        · exact Walk.Ends.pure hR₃
      | false =>
        rw [visitsTo_eq_nil (hf.childrenOf_eq_nil hcontainer), List.append_nil]
        exact Walk.Ends.pure hR
    · exact Walk.Ends.pure hR

/-- A walk over all nodes below a container, from the start. -/
theorem Consistent.walk_visitsOf (hf : f.Consistent) {bound depth : Nat} (hbound : f.size < bound)
    (hdepth : f.size < depth) (hc : c < f.size) {s : σ}
    (hvisit : HandsOnBelow f visit (f.visitsOf c) I S E) (hI : I [] s f.plain) :
    (walk bound visit depth c).Ends s f E (AtEnd (I (f.visitsOf c)) S) := by
  have hvisits := hf.visitsTo_eq_visitsOf hdepth c
  have hends : f.EndsWithin depth c := fun l hl =>
    (hf.endsWithin c l hl).trans_le hdepth
  have hwalk := hf.walk_ends hbound hvisit depth c [] s f hends hc
    (by rw [hvisits]; exact List.prefix_refl _) (SameShape.refl f) hf.keysGiven hI
  rwa [hvisits, List.nil_append] at hwalk

end Walk

end Forest

end PixelUnit
