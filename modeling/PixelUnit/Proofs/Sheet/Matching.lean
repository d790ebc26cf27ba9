import PixelUnit.Proofs.Sheet.Steps
import PixelUnit.Proofs.Sheet.Trees

/-!
# Trees side by side

Two trees of the same shape are compared node by node (`Tree.Matches`), every node with its number.
While a tree is read, the nodes that are open or finished have the numbers that they have in the
end, so that two readings can be compared as they go (`Frame.StackMatches`), and what holds of all
nodes in the end holds of those that are there already (`Builder.allAt_of_run`).
-/

namespace PixelUnit.Sheet

namespace Tree

mutual

/-- All nodes of a tree whose topmost node has number `i` satisfy `P`. -/
def AllAt (P : Nat → Content → Raws → Prop) (i : Nat) : Tree → Prop
  | .node content raws ts => P i content raws ∧ AllAtOf P (i + 1) ts

/-- All nodes of siblings, the first of which has number `i`, satisfy `P`. -/
def AllAtOf (P : Nat → Content → Raws → Prop) (i : Nat) : List Tree → Prop
  | [] => True
  | t :: ts => AllAt P i t ∧ AllAtOf P (i + t.size) ts

end

mutual

/-- Two trees, whose topmost nodes have number `i`, have the same shape, and each two nodes with the
same number satisfy `E`. -/
def Matches (E : Nat → Content → Raws → Content → Raws → Prop) (i : Nat) : Tree → Tree → Prop
  | .node content raws ts, .node content' raws' ts' =>
    E i content raws content' raws' ∧ MatchesAll E (i + 1) ts ts'

/-- Siblings match each other. -/
def MatchesAll (E : Nat → Content → Raws → Content → Raws → Prop) (i : Nat) :
    List Tree → List Tree → Prop
  | [], [] => True
  | t :: ts, t' :: ts' => Matches E i t t' ∧ MatchesAll E (i + t.size) ts ts'
  | _, _ => False

end

variable {P : Nat → Content → Raws → Prop} {E : Nat → Content → Raws → Content → Raws → Prop}

theorem allAtOf_concat {i : Nat} {ts : List Tree} {t : Tree} :
    AllAtOf P i (ts ++ [t]) ↔ AllAtOf P i ts ∧ AllAt P (i + sizes ts) t := by
  induction ts generalizing i with
  | nil => simp [AllAtOf, sizes]
  | cons u ts ih => rw [List.cons_append, AllAtOf, ih, AllAtOf, sizes, and_assoc, Nat.add_assoc]

/-- Trees that match, followed by one that matches, match. -/
theorem MatchesAll.concat {t t' : Tree} : ∀ {i : Nat} {ts ts' : List Tree},
    MatchesAll E i ts ts' → Matches E (i + sizes ts) t t' →
      MatchesAll E i (ts ++ [t]) (ts' ++ [t'])
  | i, [], [], _, ht => ⟨ht, trivial⟩
  | i, u :: ts, u' :: ts', hts, ht => by
    refine ⟨hts.1, hts.2.concat ?_⟩
    rwa [Nat.add_assoc]

theorem matches_leaf {i : Nat} {content content' : Content} {raws raws' : Raws}
    (h : E i content raws content' raws') :
    Matches E i (.node content raws []) (.node content' raws' []) :=
  ⟨h, trivial⟩

mutual

theorem Matches.size_eq : ∀ {i : Nat} {t t' : Tree}, Matches E i t t' → t'.size = t.size
  | _, .node .., .node .., h => congrArg (· + 1) h.2.sizes_eq

theorem MatchesAll.sizes_eq : ∀ {i : Nat} {ts ts' : List Tree}, MatchesAll E i ts ts' →
    sizes ts' = sizes ts
  | _, [], [], _ => rfl
  | _, _ :: _, _ :: _, h => congrArg₂ (· + ·) h.1.size_eq h.2.sizes_eq

end

end Tree

/-! ## Open containers -/

namespace Frame

variable {P : Nat → Content → Raws → Prop} {E : Nat → Content → Raws → Content → Raws → Prop}
  {f f' : Frame} {fs fs' : List Frame} {t t' : Tree}

/-- The number that the next node gets, given the open containers from the inside out. -/
def next : List Frame → Nat
  | [] => 0
  | f :: fs => next fs + 1 + Tree.sizes f.children.reverse

/-- All nodes in open containers satisfy `P`. -/
def StackAll (P : Nat → Content → Raws → Prop) : List Frame → Prop
  | [] => True
  | f :: fs => Tree.AllAtOf P (next fs + 1) f.children.reverse ∧ StackAll P fs

/-- Two open containers, whose children are numbered from `i`, are the same but for the nodes in
them. -/
structure Matches (E : Nat → Content → Raws → Content → Raws → Prop) (i : Nat) (f f' : Frame) :
    Prop where
  content : f'.content = f.content
  raws : f'.raws = f.raws
  shows : Tree.showsChildren f.content = true
  children : Tree.MatchesAll E i f.children.reverse f'.children.reverse

/-- Open containers match each other. -/
def StackMatches (E : Nat → Content → Raws → Content → Raws → Prop) :
    List Frame → List Frame → Prop
  | [], [] => True
  | f :: fs, f' :: fs' => f.Matches E (next fs + 1) f' ∧ StackMatches E fs fs'
  | _, _ => False

theorem stackAll_add :
    StackAll P (f.add t :: fs) ↔ StackAll P (f :: fs) ∧ t.AllAt P (next (f :: fs)) := by
  rw [StackAll, StackAll, add, List.reverse_cons, Tree.allAtOf_concat, next]
  exact and_right_comm

theorem stackAll_of_close {after : String} (h : (f.close after).AllAt P (next fs))
    (hfs : StackAll P fs) : StackAll P (f :: fs) :=
  ⟨h.2, hfs⟩

theorem StackMatches.add (h : StackMatches E (f :: fs) (f' :: fs'))
    (ht : Tree.Matches E (next (f :: fs)) t t') :
    StackMatches E (f.add t :: fs) (f'.add t' :: fs') := by
  refine ⟨⟨h.1.content, h.1.raws, h.1.shows, ?_⟩, h.2⟩
  rw [Frame.add, Frame.add, List.reverse_cons, List.reverse_cons]
  exact h.1.children.concat ht

/-- Open containers that match are as many. -/
theorem StackMatches.length_eq (h : StackMatches E fs fs') : fs'.length = fs.length := by
  induction fs generalizing fs' with
  | nil =>
    cases fs' with
    | nil => rfl
    | cons f' fs' => exact h.elim
  | cons f fs ih =>
    cases fs' with
    | nil => exact h.elim
    | cons f' fs' => exact congrArg (· + 1) (ih h.2)

/-- Containers that match are the same in `E`. -/
abbrev KeepsContainers (E : Nat → Content → Raws → Content → Raws → Prop) : Prop :=
  ∀ i content raws, Tree.showsChildren content = true → E i content raws content raws

/-- The innermost container is finished in both. -/
theorem StackMatches.close (hE : KeepsContainers E) (h : StackMatches E (f :: fs) (f' :: fs'))
    (after : String) : Tree.Matches E (next fs) (f.close after) (f'.close after) := by
  refine ⟨?_, h.1.children⟩
  rw [h.1.content, h.1.raws]
  exact hE _ _ _ h.1.shows

end Frame

namespace Builder

variable {P : Nat → Content → Raws → Prop} {E : Nat → Content → Raws → Content → Raws → Prop}
  {b b' : Builder} {ts ts' : List Token} {tree : Tree}

/-- The number that the next node gets. -/
def next (b : Builder) : Nat :=
  Frame.next (b.frame :: b.outer)

/-- All nodes that are finished satisfy `P`. -/
def AllAt (P : Nat → Content → Raws → Prop) (b : Builder) : Prop :=
  Frame.StackAll P (b.frame :: b.outer)

theorem allAt_closeAll : ∀ {fs : List Frame} {f : Frame} {after : String},
    (closeAll f after fs).AllAt P 0 → Frame.StackAll P (f :: fs)
  | [], f, after, h => ⟨h.2, trivial⟩
  | g :: gs, f, after, h => by
    obtain ⟨hrest, hclosed⟩ := Frame.stackAll_add.1 (@allAt_closeAll gs _ _ h)
    exact Frame.stackAll_of_close hclosed hrest

/-- What holds of all nodes behind a step held before it. -/
theorem Step.allAt (h : Step b ts b' ts') (hall : b'.AllAt P) : b.AllAt P := by
  cases h with
  | space | semicolon => exact hall
  | close ht hb =>
    obtain ⟨hrest, hclosed⟩ := Frame.stackAll_add.1 hall
    unfold AllAt
    rw [hb]
    exact Frame.stackAll_of_close hclosed hrest
  | comment | atLine | declaration => exact (Frame.stackAll_add.1 hall).1
  | atBlock | rule => exact hall.2

/-- A step takes no faults away. -/
theorem Step.faults (h : Step b ts b' ts') (hnone : b'.faults = []) : b.faults = [] := by
  cases h with
  | space | semicolon | close | comment => exact hnone
  | atBlock | atLine | rule | declaration => exact (List.append_eq_nil_iff.1 hnone).1

/-- What holds of all nodes of a tree that was read held while it was read. -/
theorem allAt_of_run (hok : (b.run ts).result = .ok tree) (hall : tree.AllAt P 0) : b.AllAt P := by
  refine run_induction (P := fun b ts => (b.run ts).result = .ok tree → b.AllAt P) ?_ ?_ b ts
    hok hok
  · intro b ts pos _ hrun hok
    rw [hrun] at hok
    cases hok
    exact allAt_closeAll hall
  · intro b ts b' ts' hstep ih hok
    rw [hstep.run_eq] at hok
    exact hstep.allAt (ih hok)

/-- A reading that ends without a fault has none on the way. -/
theorem faults_of_run (hok : (b.run ts).result = .ok tree) (hnone : (b.run ts).faults = []) :
    b.faults = [] := by
  refine run_induction (P := fun b ts => (b.run ts).faults = [] → b.faults = []) ?_ ?_ b ts hok
    hnone
  · intro b ts pos _ hrun hnone
    rw [hrun] at hnone
    exact (List.append_eq_nil_iff.1 hnone).1
  · intro b ts b' ts' hstep ih hnone
    rw [hstep.run_eq] at hnone
    exact hstep.faults (ih hnone)

/-! ## Two readings -/

/-- Two readings have come equally far, and what is open and finished in them matches. -/
structure Matches (E : Nat → Content → Raws → Content → Raws → Prop) (b b' : Builder) : Prop where
  frames : Frame.StackMatches E (b.frame :: b.outer) (b'.frame :: b'.outer)
  pending : b'.pending = b.pending
  faults : b'.faults = b.faults

namespace Matches

theorem note (h : Matches E b b') (fault : Option Fault) :
    Matches E (b.note fault) (b'.note fault) :=
  ⟨h.frames, h.pending, congrArg (· ++ fault.toList) h.faults⟩

theorem add (h : Matches E b b') (taken taken' : List Token) {t t' : Tree}
    (ht : Tree.Matches E b.next t t') : Matches E (b.add taken t) (b'.add taken' t') :=
  ⟨h.frames.add ht, rfl, h.faults⟩

theorem setSemicolon (h : Matches E b b') (semicolon : Bool) :
    Matches E (b.setSemicolon semicolon) (b'.setSemicolon semicolon) := by
  obtain ⟨⟨⟨hcontent, hraws, hshows, hchildren⟩, houter⟩, hpending, hfaults⟩ := h
  refine ⟨⟨⟨hcontent, ?_, hshows, hchildren⟩, houter⟩, hpending, hfaults⟩
  rw [Builder.setSemicolon, Builder.setSemicolon, Frame.setSemicolon, Frame.setSemicolon, hraws]

theorem openBlock (h : Matches E b b') (taken : List Token) {content : Content} (raws : Raws)
    (hshows : Tree.showsChildren content = true) :
    Matches E (b.openBlock taken content raws) (b'.openBlock taken content raws) :=
  ⟨⟨⟨rfl, rfl, hshows, trivial⟩, h.frames⟩, rfl, h.faults⟩

/-- The innermost container is finished in both. -/
theorem close (hE : Frame.KeepsContainers E) (h : Matches E b b') (t : Token) {f : Frame}
    {fs : List Frame} (hb : b.outer = f :: fs) :
    ∃ f' fs', b'.outer = f' :: fs' ∧
      Matches E { b.pass [t] with frame := f.add (b.frame.close b.pending), outer := fs }
        { b'.pass [t] with frame := f'.add (b'.frame.close b'.pending), outer := fs' } := by
  have hframes := h.frames
  rw [hb] at hframes
  have hclosed := hframes.close hE b.pending
  generalize b'.outer = outer' at hframes hclosed
  cases outer' with
  | nil => exact hframes.2.elim
  | cons f' fs' =>
    refine ⟨f', fs', rfl, ?_, rfl, h.faults⟩
    rw [h.pending]
    exact Frame.StackMatches.add hframes.2 hclosed

end Matches

/-- Open containers that match are closed to trees that match. -/
theorem matches_closeAll (hE : Frame.KeepsContainers E) {fs fs' : List Frame} {f f' : Frame}
    {after : String} (h : Frame.StackMatches E (f :: fs) (f' :: fs')) :
    Tree.Matches E 0 (closeAll f after fs) (closeAll f' after fs') := by
  induction fs generalizing fs' f f' after with
  | nil =>
    cases fs' with
    | nil => exact h.close hE after
    | cons g' gs' => exact h.2.elim
  | cons g gs ih =>
    cases fs' with
    | nil => exact h.2.elim
    | cons g' gs' => exact ih (Frame.StackMatches.add h.2 (h.close hE after))

/-- Readings that match at the end of the source end alike. -/
theorem Matches.finish (hE : Frame.KeepsContainers E) (h : Matches E b b') {pos pos' : Position}
    {rest rest' : List Token} (hok : (b.finish pos rest).result = .ok tree)
    (hnone : (b.finish pos rest).faults = []) :
    ∃ tree', (b'.finish pos' rest').result = .ok tree' ∧ (b'.finish pos' rest').faults = [] ∧
      Tree.Matches E 0 tree tree' := by
  obtain ⟨hfaults, houter⟩ := List.append_eq_nil_iff.1 hnone
  cases hok
  refine ⟨closeAll b'.frame b'.pending b'.outer, rfl, List.append_eq_nil_iff.2 ⟨?_, ?_⟩, ?_⟩
  · rw [h.faults, hfaults]
  · have hlength : b'.outer.length = b.outer.length := h.frames.2.length_eq
    rw [List.map_eq_nil_iff] at houter ⊢
    rwa [houter, List.length_nil, List.length_eq_zero_iff] at hlength
  · rw [h.pending]
    exact matches_closeAll hE h.frames

end Builder

end PixelUnit.Sheet
