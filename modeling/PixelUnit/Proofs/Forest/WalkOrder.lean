import PixelUnit.Proofs.Forest.Courses
import PixelUnit.Proofs.Forest.Planted

/-!
# The calls of a walk

A walk calls its callback at the nodes below a container one after the other, each with its position
among its siblings and before the nodes below it. The first call that stops it or fails is the last
one, however deep in the tree, and decides how the walk ends (`Called`). A walk over declarations
leaves out the nodes that are none, and those whose properties do not pass its filter. This is
`Consistent.walk_called`.

The callback must leave the tree as it is at the places it is called at (`LeavesTree`). It may keep
a state of its own, and iterate over the tree itself.
-/

namespace PixelUnit

open Sheet

namespace Forest

variable {σ : Type} {visit visit' : Visit σ} {f g g' : Forest} {c i : NodeId} {s : σ}
  {places : List (NodeId × Nat)}

/-! ## Calls at places -/

/-- Wherever a callback is called at one of some places of a tree, it leaves the tree as it is,
whether it succeeds or fails. It may have given out keys for iterations, but none of these runs. -/
def LeavesTree (f : Forest) (visit : Visit σ) (places : List (NodeId × Nat)) : Prop :=
  ∀ p ∈ places, ∀ s g, g.plain = f.plain → g.KeysGiven →
    Kept g ((visit p.1 p.2 s).left g) ∧ ((visit p.1 p.2 s).left g).plain = f.plain

/-- Called at places one after the other, where each call gets the state that the one before it
returned, a callback never asks to stop. The tree is that of `f` at every call. -/
inductive RunsThrough (visit : Visit σ) (f : Forest) (s : σ) : List (NodeId × Nat) → σ → Prop
  | none : RunsThrough visit f s [] s
  | next {front : List (NodeId × Nat)} {i : NodeId} {n : Nat} {s₁ s₂ : σ} {g g' : Forest}
      (hfront : RunsThrough visit f s front s₁) (hg : g.plain = f.plain)
      (hcall : visit i n s₁ g = .ok (.proceed, s₂) g') :
      RunsThrough visit f s (front ++ [(i, n)]) s₂

/-- The call at one of some places comes to `r`, and none before it asks to stop. -/
def ComesTo (visit : Visit σ) (f : Forest) (s : σ) (places : List (NodeId × Nat))
    (r : EStateM.Result EditError Forest (Verdict × σ)) : Prop :=
  ∃ (front rest : List (NodeId × Nat)) (i : NodeId) (n : Nat) (s₁ : σ) (g : Forest),
    places = front ++ (i, n) :: rest ∧ RunsThrough visit f s front s₁ ∧ g.plain = f.plain ∧
      visit i n s₁ g = r

/-- How a walk ends that calls a callback at some places, up to the first call that asks to stop or
fails. -/
inductive Called (visit : Visit σ) (f : Forest) (s : σ) (places : List (NodeId × Nat)) :
    EStateM.Result EditError Forest (Bool × σ) → Prop
  | all {s' : σ} {g : Forest} (hall : RunsThrough visit f s places s') (hg : g.plain = f.plain) :
      Called visit f s places (.ok (true, s') g)
  | stopped {s' : σ} {g g' : Forest} (hstop : ComesTo visit f s places (.ok (.stop, s') g'))
      (hg : g.plain = f.plain) : Called visit f s places (.ok (false, s') g)
  | failed {e : EditError} {g g' : Forest} (hfail : ComesTo visit f s places (.error e g'))
      (hg : g.plain = f.plain) : Called visit f s places (.error e g)

/-! ## Calls at some of the nodes -/

/-- A visit calls a callback at some of the places, and does nothing at others. -/
def CallsAt (f : Forest) (visit' visit : Visit σ) (keep : NodeId × Nat → Bool) : Prop :=
  ∀ p s g, g.plain = f.plain →
    visit' p.1 p.2 s g = if keep p then visit p.1 p.2 s g else .ok (.proceed, s) g

/-- A callback that is called at some places hands on that it has been called at those it has
passed, as long as it asks neither to stop nor fails. -/
theorem CallsAt.handsOnBelow {keep : NodeId × Nat → Bool} (hcalls : CallsAt f visit' visit keep)
    (hvisit : LeavesTree f visit (places.filter keep)) (s : σ) :
    HandsOnBelow f visit' places
      (fun done s' h => h = f.plain ∧ RunsThrough visit f s (done.filter keep) s')
      (fun s' h => h = f.plain ∧
        ∃ g', ComesTo visit f s (places.filter keep) (.ok (.stop, s') g'))
      (fun e h => h = f.plain ∧ ∃ g', ComesTo visit f s (places.filter keep) (.error e g')) := by
  rintro done i n ⟨rest, rfl⟩ s₁ g - hkeys ⟨hg, hdone⟩
  have hrun := hcalls (i, n) s₁ g hg
  cases hkeep : keep (i, n) with
  | false =>
    rw [hkeep, if_neg Bool.false_ne_true] at hrun
    exact .returns hrun (.refl g) ⟨hg, by simpa [hkeep] using hdone⟩
  | true =>
    rw [hkeep, if_pos rfl] at hrun
    have hnow : (done ++ [(i, n)]).filter keep = done.filter keep ++ [(i, n)] := by simp [hkeep]
    rw [List.filter_append, hnow, List.append_assoc] at hvisit ⊢
    obtain ⟨hkept, hplain⟩ := hvisit (i, n) (by simp) s₁ g hg hkeys
    have hcomes : ComesTo visit f s (done.filter keep ++ ([(i, n)] ++ rest.filter keep))
        (visit i n s₁ g) := ⟨_, _, _, _, _, _, rfl, hdone, hg, rfl⟩
    cases hcall : visit i n s₁ g with
    | error e g' =>
      rw [Edit.left_error hcall] at hkept hplain
      exact .fails (hrun.trans hcall) hkept ⟨hplain, g', hcall ▸ hcomes⟩
    | ok r g' =>
      obtain ⟨v, s₂⟩ := r
      rw [Edit.left_ok hcall] at hkept hplain
      refine .returns (hrun.trans hcall) hkept ?_
      cases v with
      | proceed => exact ⟨hplain, hnow ▸ hdone.next hg hcall⟩
      | stop => exact ⟨hplain, g', hcall ▸ hcomes⟩

/-- A walk calls a callback at those of its places where its visits do. -/
theorem Consistent.walk_callsAt (hf : f.Consistent) (hc : c < f.size) {bound depth : Nat}
    (hbound : f.size < bound) (hdepth : f.size < depth) {keep : NodeId × Nat → Bool}
    (hcalls : CallsAt f visit' visit keep)
    (hvisit : LeavesTree f visit ((f.visitsOf c).filter keep)) (s : σ) :
    Called visit f s ((f.visitsOf c).filter keep) (walk bound visit' depth c s f) := by
  cases hf.walk_visitsOf hbound hdepth hc (hcalls.handsOnBelow hvisit s) ⟨rfl, .none⟩ with
  | fails hrun _ hE =>
    obtain ⟨hplain, g', hfail⟩ := hE
    exact hrun ▸ .failed hfail hplain
  | @returns b s' g hrun _ hend =>
    rw [hrun]
    cases b with
    | true => exact .all hend.2 hend.1
    | false =>
      obtain ⟨hplain, g', hstop⟩ := hend
      exact .stopped hstop hplain

/-! ## Walks -/

/-- A walk that calls a callback at every node calls it in the order of the visits, up to the first
call that asks to stop or fails. -/
theorem Consistent.walk_calls (hf : f.Consistent) (hc : c < f.size) {bound depth : Nat}
    (hbound : f.size < bound) (hdepth : f.size < depth) (hvisit : LeavesTree f visit (f.visitsOf c))
    (s : σ) : Called visit f s (f.visitsOf c) (walk bound visit depth c s f) := by
  have hall : CallsAt f visit visit fun _ => true := fun _ _ _ _ => (if_pos rfl).symm
  rw [← List.filter_true (f.visitsOf c)] at hvisit ⊢
  exact hf.walk_callsAt hc hbound hdepth hall hvisit s

/-- A node is a declaration whose property passes a filter. -/
def isDeclared (f : Forest) (filter : PropFilter) (i : NodeId) : Bool :=
  match f.contentOf i with
  | some (.declaration prop _ _) => filter.accepts prop
  | _ => false

/-- The declarations below a container whose properties pass a filter, with their positions. -/
def declarationsOf (f : Forest) (filter : PropFilter) (c : NodeId) : List (NodeId × Nat) :=
  (f.visitsOf c).filter fun p => f.isDeclared filter p.1

/-- A walk over declarations calls its callback at the declarations that pass the filter, and at
nothing else. -/
theorem callsAt_onDeclarations (f : Forest) (filter : PropFilter) (visit : Visit σ) :
    CallsAt f (onDeclarations filter visit) visit fun p => f.isDeclared filter p.1 := by
  intro p s g hg
  have hcontent : g.contentOf p.1 = f.contentOf p.1 := by
    rw [← contentOf_plain g, hg, contentOf_plain]
  show onDeclarations filter visit p.1 p.2 s g =
    if f.isDeclared filter p.1 then visit p.1 p.2 s g else .ok (.proceed, s) g
  unfold onDeclarations isDeclared
  rw [Walk.getThe_bind_apply, hcontent]
  cases f.contentOf p.1 with
  | none => rfl
  | some content =>
    cases content with
    | declaration prop =>
      dsimp only
      split <;> rfl
    | root | rule | atRule | comment => rfl

/-- A walk calls its callback at all nodes below a container in turn, and a walk over declarations
at those whose properties pass its filter, up to the first call that stops it or fails. -/
theorem Consistent.walk_called (hf : f.Consistent) (hc : c < f.size) {bound depth : Nat}
    (hbound : f.size < bound) (hdepth : f.size < depth) (visit : Visit σ) (s : σ) :
    (LeavesTree f visit (f.visitsOf c) →
      Called visit f s (f.visitsOf c) (walk bound visit depth c s f)) ∧
    ∀ filter, LeavesTree f visit (f.declarationsOf filter c) →
      Called visit f s (f.declarationsOf filter c)
        (walk bound (onDeclarations filter visit) depth c s f) := by
  constructor
  · intro hvisit
    exact hf.walk_calls hc hbound hdepth hvisit s
  · intro filter hvisit
    exact hf.walk_callsAt hc hbound hdepth (callsAt_onDeclarations f filter visit) hvisit s

/-- A rule with two declarations and a comment in an at-rule, and a declaration behind that. -/
def stackedTree : Tree :=
  .node (.root none) {}
    [.node (.atRule "media" "print" true) {}
      [.node (.rule "a") {}
        [.node (.declaration "top" "1px" false) {} [], .node (.comment "left") {} [],
         .node (.declaration "margin-top" "2px" false) {} []]],
     .node (.declaration "color" "red" false) {} []]

/-- Writes down where it is called, and asks to stop at one node. -/
def noteUntil (stop : NodeId) : Visit (List (NodeId × Int)) := fun i n seen =>
  pure (if i = stop then .stop else .proceed, seen ++ [(i, n)])

theorem leavesTree_noteUntil (f : Forest) (stop : NodeId) (places : List (NodeId × Nat)) :
    LeavesTree f (noteUntil stop) places :=
  fun _ _ _ g hg _ => ⟨.refl g, hg⟩

def stackedForest : Forest := (({} : Forest).plant none stackedTree).2

/-- A walk stops at the fourth node of a forest with nodes at three depths. -/
theorem walk_called_stackedForest : stackedForest.Consistent ∧ stackedForest.size = 7 ∧
    LeavesTree stackedForest (noteUntil 4) (stackedForest.visitsOf 0) ∧
    Called (noteUntil 4) stackedForest [] (stackedForest.visitsOf 0)
      (walk 8 (noteUntil 4) 8 0 [] stackedForest) ∧
    stackedForest.visitsOf 0 = [(1, 0), (2, 0), (3, 0), (4, 1), (5, 2), (6, 1)] ∧
    Edit.result? (walk 8 (noteUntil 4) 8 0 []) stackedForest =
      some (false, [(1, 0), (2, 0), (3, 0), (4, 1)]) ∧
    Called (noteUntil 4) stackedForest [] (stackedForest.declarationsOf (.exactly "top") 0)
      (walk 8 (onDeclarations (.exactly "top") (noteUntil 4)) 8 0 [] stackedForest) ∧
    Edit.result? (walk 8 (onDeclarations (.exactly "top") (noteUntil 4)) 8 0 []) stackedForest =
      some (true, [(3, 0)]) := by
  have hf : stackedForest.Consistent := by
    refine consistent_plant ?_
    simp [stackedTree, Tree.All, Tree.AllOf, Tree.Branches, Content.isContainer]
  have hsize : stackedForest.size = 7 := by decide +kernel
  have hwalk := @Consistent.walk_called _ _ 0 hf (by rw [hsize]; decide) 8 8 (by omega) (by omega)
    (noteUntil 4) []
  exact ⟨hf, hsize, leavesTree_noteUntil _ 4 _, hwalk.1 (leavesTree_noteUntil _ 4 _),
    by decide +kernel, by decide +kernel, hwalk.2 _ (leavesTree_noteUntil _ 4 _),
    by decide +kernel⟩

end Forest

end PixelUnit
