import PixelUnit.Proofs.Forest.Walk
import PixelUnit.Transform.Gates

/-!
# What gates see

Gates only look: asked for a declaration, the first shut gate is found and the forest is left as it
is (`skippedBy_apply`). Of the nodes around a declaration they see selectors, comments and who
stands where, but no values, so that they answer the same after values have changed
(`SameButValues.gateOf`).
-/

namespace PixelUnit

open Sheet

namespace Forest

variable {f g h : Forest} {i : NodeId}

/-! ## Gates as functions -/

/-- The node behind a node among the children of its parent. -/
def nextOf (f : Forest) (i : NodeId) : Option NodeId :=
  (f.parentOf i).bind fun p =>
    ((f.childrenOf p).idxOf? i).bind fun k => (f.childrenOf p)[k + 1]?

/-- Whether a gate is shut for a declaration. -/
def shuts (f : Forest) (s : Settings) (i : NodeId) (prop value : String) (file : Option String) :
    Gate → Bool
  | .path => !s.covers file
  | .unit => !Text.contains value pixelUnit
  | .variableName => Text.contains value s.variableName || Text.contains prop s.variableName
  | .selector => s.selectorBlacklist.hits (f.selectorOf i)
  | .prop => s.propBlacklist.hits (some prop)
  | .ignore => s.ignoredText?.any fun text =>
      Text.contains value text || (f.nextOf i).bind f.contentOf == some (.comment text)

/-- The first gate that is shut for a declaration. -/
def gateOf (f : Forest) (s : Settings) (i : NodeId) (prop value : String) (file : Option String) :
    Option Gate :=
  s.gates.find? (f.shuts s i prop value file)

/-- A node that hangs from another is one of its children. -/
def Listed (f : Forest) (i : NodeId) : Prop :=
  ∀ p, f.parentOf i = some p → i ∈ f.childrenOf p

theorem Consistent.listed (hf : f.Consistent) (i : NodeId) : f.Listed i := fun p hp =>
  (hf.mem_childrenOf_iff i p).2 hp

/-- The node behind a node is found, and nothing changes. -/
theorem next_apply (hi : f.Listed i) : next i f = .ok (f.nextOf i) f := by
  unfold next nextOf
  rw [Edit.get_bind_apply]
  cases hp : f.parentOf i with
  | none => rfl
  | some p =>
    obtain ⟨k, hk⟩ : ∃ k, (f.childrenOf p).idxOf? i = some k :=
      Option.isSome_iff_exists.1 ((List.isSome_idxOf?).2 (hi p hp))
    have hlocate : locate p (.node i) f = .ok (k : Int) f := by
      unfold locate
      dsimp only
      rw [Edit.get_bind_apply, hk]
      rfl
    rw [Option.bind_some, hk, Option.bind_some]
    exact Edit.bind_ok hlocate _

theorem isFollowedBy_apply (hi : f.Listed i) (text : String) :
    isFollowedBy i text f =
      .ok ((f.nextOf i).bind f.contentOf == some (.comment text)) f :=
  Edit.bind_ok (next_apply hi) _

variable {s : Settings} {prop value : String} {file : Option String}

/-- A gate is asked, and nothing changes. -/
theorem isShut_apply (hi : f.Listed i) (gate : Gate) :
    isShut s i prop value file gate f = .ok (f.shuts s i prop value file gate) f := by
  cases gate with
  | ignore =>
    unfold isShut shuts
    cases s.ignoredText? with
    | none => rfl
    | some text =>
      rw [Option.any_some]
      dsimp only
      cases Text.contains value text with
      | true => rfl
      | false => exact isFollowedBy_apply hi text
  | path | unit | variableName | selector | prop => rfl

/-- The gates are asked in their order up to the first that is shut, and nothing changes. -/
theorem firstShut_apply (hi : f.Listed i) :
    ∀ gates : List Gate,
      firstShut s i prop value file gates f = .ok (gates.find? (f.shuts s i prop value file)) f
  | [] => rfl
  | gate :: gates => by
    rw [firstShut, Edit.bind_ok (isShut_apply hi gate), List.find?_cons]
    cases f.shuts s i prop value file gate with
    | true => rfl
    | false => exact firstShut_apply hi gates

/-- The gates are asked in their order, and nothing changes. -/
theorem skippedBy_apply (hi : f.Listed i) :
    skippedBy s i prop value file f = .ok (f.gateOf s i prop value file) f :=
  firstShut_apply hi s.gates

/-! ## What gates do not see -/

end Forest

namespace Sheet.Content

/-- The content but for the value of a declaration and its importance. -/
def outline : Content → Content
  | declaration prop _ _ => declaration prop "" false
  | c => c

theorem outline_eq_rule_iff {c : Content} {selector : String} :
    c.outline = .rule selector ↔ c = .rule selector := by
  cases c <;> simp [outline]

theorem outline_eq_comment_iff {c : Content} {text : String} :
    c.outline = .comment text ↔ c = .comment text := by
  cases c <;> simp [outline]

theorem isContainer_outline (c : Content) : c.outline.isContainer = c.isContainer := by
  cases c <;> rfl

end Sheet.Content

namespace Slot

/-- The node but for its raws, its value and the bookkeeping of iterations. -/
def outline (s : Slot) : Option NodeId × List NodeId × Content :=
  (s.parent, s.children, s.content.outline)

theorem shape_eq_outline (s : Slot) :
    s.shape = (s.outline.1, s.outline.2.1, s.outline.2.2.isContainer) := by
  unfold shape outline
  rw [Content.isContainer_outline]

end Slot

namespace Forest

variable {f g h : Forest} {i : NodeId}

/-- Nodes differ at most in their raws and the values and importance of declarations. -/
def SameButValues (f g : Forest) : Prop :=
  ∀ i, (g.get? i).map Slot.outline = (f.get? i).map Slot.outline

namespace SameButValues

/-- Nodes that differ in their values only have the same places. -/
theorem sameShape (hfg : SameButValues f g) : SameShape f g := by
  intro i
  have hi := congrArg (Option.map fun t => (t.1, t.2.1, t.2.2.isContainer)) (hfg i)
  rw [Option.map_map, Option.map_map] at hi
  have hshape : Slot.shape = (fun t : Option NodeId × List NodeId × Content =>
      (t.1, t.2.1, t.2.2.isContainer)) ∘ Slot.outline := funext Slot.shape_eq_outline
  rw [hshape]
  exact hi

theorem map_contentOf (hfg : SameButValues f g) (i : NodeId) :
    (g.contentOf i).map Content.outline = (f.contentOf i).map Content.outline := by
  have hi := congrArg (Option.map fun t => t.2.2) (hfg i)
  rw [Option.map_map, Option.map_map] at hi
  unfold contentOf
  rw [Option.map_map, Option.map_map]
  exact hi

/-- What a content looks like from outside is the same in both. -/
theorem contentOf_eq_iff (hfg : SameButValues f g) {c : Content}
    (hc : ∀ d : Content, d.outline = c ↔ d = c) (i : NodeId) :
    g.contentOf i = some c ↔ f.contentOf i = some c := by
  have hiff : ∀ e : Forest, e.contentOf i = some c ↔
      (e.contentOf i).map Content.outline = some c := by
    intro e
    cases e.contentOf i with
    | none => simp
    | some d => simp [hc d]
  rw [hiff, hiff, hfg.map_contentOf i]

theorem nextOf (hfg : SameButValues f g) (i : NodeId) : g.nextOf i = f.nextOf i := by
  unfold Forest.nextOf
  rw [hfg.sameShape.parentOf]
  simp only [hfg.sameShape.childrenOf]

/-- The selector of a declaration does not depend on values. -/
theorem selectorOf (hfg : SameButValues f g) (i : NodeId) : g.selectorOf i = f.selectorOf i := by
  have hiff : ∀ (e : Forest) (selector : String), e.selectorOf i = some selector ↔
      (e.parentOf i).bind e.contentOf = some (.rule selector) := by
    intro e selector
    unfold Forest.selectorOf
    split
    · next h => simp [h]
    · next h => simpa using fun hr => h selector hr
  refine Option.ext fun selector => ?_
  rw [hiff, hiff, hfg.sameShape.parentOf]
  cases f.parentOf i with
  | none => rfl
  | some p => exact hfg.contentOf_eq_iff (fun d => Content.outline_eq_rule_iff) p

/-- Gates answer the same when values have changed. -/
theorem shuts (hfg : SameButValues f g) (s : Settings) (i : NodeId) (prop value : String)
    (file : Option String) : g.shuts s i prop value file = f.shuts s i prop value file := by
  funext gate
  cases gate with
  | selector =>
    unfold Forest.shuts
    rw [hfg.selectorOf]
  | ignore =>
    have hnext : ∀ text, ((g.nextOf i).bind g.contentOf == some (.comment text)) =
        ((f.nextOf i).bind f.contentOf == some (.comment text)) := by
      intro text
      rw [hfg.nextOf, Bool.eq_iff_iff, beq_iff_eq, beq_iff_eq]
      cases f.nextOf i with
      | none => rfl
      | some j => exact hfg.contentOf_eq_iff (fun d => Content.outline_eq_comment_iff) j
    unfold Forest.shuts
    simp only [hnext]
  | path | unit | variableName | prop => rfl

/-- The gates do not depend on values that other declarations have got. -/
theorem gateOf (hfg : SameButValues f g) (s : Settings) (i : NodeId) (prop value : String)
    (file : Option String) : g.gateOf s i prop value file = f.gateOf s i prop value file := by
  unfold Forest.gateOf
  rw [hfg.shuts]

end SameButValues

end Forest

end PixelUnit
