import PixelUnit.Proofs.Forest.Additions
import PixelUnit.Proofs.Transform.Insert
import PixelUnit.Proofs.Transform.Rewrite

/-!
# Runs of actions

Trees are planted, nodes are made, moved, removed and copied, and stylesheets are transformed, one
after the other (`Forest.Run`). Every action that succeeds leaves a consistent forest
(`Consistent.perform`), if no container is handed itself or a node above it, so that whatever can be
reached that way is a forest indeed (`Forest.isForest_of_run`).
-/

namespace PixelUnit

open Sheet

/-- The tree of a stylesheet has children only where they can be. -/
theorem SourceReading.branches {css : String} {file : Option String} {tree : Tree}
    (h : (SourceReading.ofSource css file).tree = .ok tree) : tree.All Tree.Branches := by
  obtain ⟨-, -, hresult, -⟩ := SourceReading.tokens_of_tree h
  exact (Reading.all_fromTokens hresult).1.mono fun _ _ _ h => h.showsAll.branches

namespace Forest

variable {f g h : Forest}

/-- What can be done to a forest. -/
inductive Action where
  /-- A tree is added. -/
  | plant (t : Tree)
  /-- A node is made, and nodes are moved to it. -/
  | create (content : Content) (raws : Raws) (children : List NodeId)
  | append (c : NodeId) (new : List NodeId)
  | insertBefore (c : NodeId) (spot : Spot) (new : List NodeId)
  | insertAfter (c : NodeId) (spot : Spot) (new : List NodeId)
  | remove (i : NodeId)
  | removeChild (c : NodeId) (spot : Spot)
  /-- The tree below a node is copied, with attributes given anew. -/
  | clone (i : NodeId) (overrides : List Attribute)
  | transform (s : Settings) (root : NodeId)

/-- Does an action. -/
def Action.perform : Action → Edit Unit
  | plant t => modify fun f => (f.plant none t).2
  | create content raws children => do let _ ← Forest.create content raws children
  | append c new => Forest.append c new
  | insertBefore c spot new => Forest.insertBefore c spot new
  | insertAfter c spot new => Forest.insertAfter c spot new
  | remove i => Forest.remove i
  | removeChild c spot => Forest.removeChild c spot
  | clone i overrides => do let _ ← Forest.clone i overrides
  | transform s root => do let _ ← Forest.transform s root

/-- What an action may be about: trees of stylesheets are planted, nodes exist, only containers get
children, none of them itself or a node above it, and what is transformed is a stylesheet. -/
def Permits (f : Forest) : Action → Prop
  | .plant t => ∃ css file, (SourceReading.ofSource css file).tree = .ok t
  | .create content _ children =>
    (∀ i ∈ children, i < f.size) ∧ (children ≠ [] → content.isContainer = true)
  | .append c new | .insertBefore c _ new | .insertAfter c _ new =>
    f.isContainer c = true ∧ f.MayAdopt c new
  | .remove i | .clone i _ => i < f.size
  | .removeChild c _ => f.isContainer c = true
  | .transform _ root => ∃ file, f.contentOf root = some (.root file)

/-- Permitted actions that succeed, one after the other. -/
inductive Run : Forest → List Action → Forest → Prop where
  | nil (f : Forest) : Run f [] f
  | cons {f g h : Forest} {a : Action} {as : List Action} (permitted : f.Permits a)
    (performed : a.perform.run f = .ok () g) (rest : Run g as h) : Run f (a :: as) h

/-- The transform leaves a consistent forest, whether it replaces values or inserts copies. -/
theorem Consistent.transform (hf : f.Consistent) {s : Settings} {root : NodeId} {result : Nat × Log}
    (hroot : root < f.size) (h : Forest.transform s root f = .ok result g) : g.Consistent := by
  cases hs : s.replaces with
  | true =>
    obtain ⟨count, log, e, hrun, hkept, -⟩ := hf.transform_apply hs hroot
    obtain ⟨-, rfl⟩ := EStateM.Result.ok.inj (hrun.symm.trans h)
    exact hkept.consistent hf
  | false =>
    obtain ⟨count, log, e, hrun, hkeys, copies, hcopies, -⟩ := hf.transform_inserts hs hroot
    obtain ⟨-, rfl⟩ := EStateM.Result.ok.inj (hrun.symm.trans h)
    exact hcopies.consistent hf hkeys

/-- Every permitted action that succeeds leaves a consistent forest. -/
theorem Consistent.perform (hf : f.Consistent) {a : Action} (ha : f.Permits a)
    (h : a.perform.run f = .ok () g) : g.Consistent := by
  cases a with
  | plant t =>
    obtain ⟨css, file, ht⟩ := ha
    cases h
    exact hf.plant (SourceReading.branches ht)
  | create content raws children =>
    obtain ⟨i, e, hcreate, hrest⟩ := Edit.exists_of_bind_ok h
    cases hrest
    exact hf.create ha.1 ha.2 hcreate
  | append c new => exact (hf.append ha.1 ha.2 h).1
  | insertBefore c spot new => exact hf.insertBefore ha.1 ha.2 h
  | insertAfter c spot new => exact hf.insertAfter ha.1 ha.2 h
  | remove i => exact hf.remove h
  | removeChild c spot => exact hf.removeChild h
  | clone i overrides =>
    obtain ⟨j, e, hclone, hrest⟩ := Edit.exists_of_bind_ok h
    cases hrest
    exact hf.clone ha hclone
  | transform s root =>
    obtain ⟨file, hroot⟩ := ha
    obtain ⟨t, ht, -⟩ := Option.map_eq_some_iff.1 hroot
    obtain ⟨result, e, htransform, hrest⟩ := Edit.exists_of_bind_ok h
    cases hrest
    exact hf.transform (lt_size_of_get? ht) htransform

theorem Consistent.run (hf : f.Consistent) {as : List Action} (h : Run f as g) : g.Consistent := by
  induction h with
  | nil => exact hf
  | cons permitted performed _ ih => exact ih (hf.perform permitted performed)

/-- The nodes make trees: a node has a parent exactly where it is a child, and it is a child once
and in one place; from every node the way up ends, and so does the way down. -/
structure IsForest (f : Forest) : Prop where
  parentOf_iff : ∀ i c, f.parentOf i = some c ↔ i ∈ f.childrenOf c
  count_childrenOf : ∀ i c, i ∈ f.childrenOf c → (f.childrenOf c).count i = 1
  eq_of_mem_childrenOf : ∀ i c d, i ∈ f.childrenOf c → i ∈ f.childrenOf d → c = d
  parentOf_top : ∀ i, f.parentOf (f.topFrom f.size i) = none
  viewTo_eq : ∀ depth i, f.size < depth → f.viewTo depth i = f.view i

theorem Consistent.isForest (hf : f.Consistent) : f.IsForest where
  parentOf_iff i c := (hf.mem_childrenOf_iff i c).symm
  count_childrenOf _ c hi := List.count_eq_one_of_mem (hf.nodup_childrenOf c) hi
  eq_of_mem_childrenOf i c d hc hd := Option.some.inj
    (((hf.mem_childrenOf_iff i c).1 hc).symm.trans ((hf.mem_childrenOf_iff i d).1 hd))
  parentOf_top := hf.parentOf_topFrom
  viewTo_eq _ i h := hf.viewTo_eq_view h i

theorem consistent_empty : ({} : Forest).Consistent := by
  have hget : ∀ i, ({} : Forest).get? i = none := fun i => Array.getElem?_empty
  have hparent : ∀ i, ({} : Forest).parentOf i = none := fun i => by rw [parentOf, hget]; rfl
  have hchildren : ∀ c, ({} : Forest).childrenOf c = [] := fun c => by rw [childrenOf, hget]; rfl
  refine ⟨fun i c => ?_, fun c => ?_, fun i c hi => ?_, fun i hi => ?_, fun i s hs => ?_⟩
  · rw [hparent, hchildren]
    exact iff_of_false List.not_mem_nil (Option.some_ne_none c).symm
  · rw [hchildren]
    exact List.nodup_nil
  · rw [hchildren] at hi
    cases hi
  · obtain ⟨c, hc, -⟩ := Relation.TransGen.head'_iff.1 hi
    rw [HangsFrom, hparent] at hc
    cases hc
  · rw [hget] at hs
    cases hs

/-- Whatever permitted actions lead to from an empty forest is a forest. -/
theorem isForest_of_run {as : List Action} (h : Run {} as f) : f.IsForest :=
  (consistent_empty.run h).isForest

/-- A comment goes to a new rule, is taken out by its position and comes back. -/
theorem isForest_of_movedComment :
    ∃ f, Run {} [.create (.comment "c") {} [], .create (.rule "a") {} [0],
      .removeChild 1 (.index (-1)), .append 1 [0]] f ∧ f.childrenOf 1 = [0] ∧ f.IsForest := by
  have hrun : Run {} [.create (.comment "c") {} [], .create (.rule "a") {} [0],
      .removeChild 1 (.index (-1)), .append 1 [0]] _ :=
    .cons ⟨nofun, nofun⟩ rfl <| .cons ⟨by decide, fun _ => rfl⟩ rfl <| .cons rfl rfl <|
      .cons ⟨rfl, mayAdopt_of_parentOf rfl (by decide)⟩ rfl (.nil _)
  exact ⟨_, hrun, rfl, isForest_of_run hrun⟩

end Forest

end PixelUnit
