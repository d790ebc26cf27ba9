import PixelUnit.Proofs.Transform.Pieces
import PixelUnit.Proofs.Transform.Replace

/-!
# Converting again

A forest whose values were replaced has nothing left to replace. A declaration that a gate kept
back, or that had nothing to convert, is what it was, and gates do not see the values around it; one
that was converted names the custom property now, whatever the fallbacks say, so that a gate is
shut for it (`Lengths.contains_of_convert_ne`). A second run finds nothing to do
(`Forest.transform_again`).
-/

namespace PixelUnit

open Sheet

namespace Forest

variable {f g : Forest} {s : Settings} {file : Option String} {root i : NodeId}
  {done : List NodeId}

/-- A value that names the custom property is kept as it is. -/
theorem gateOf_ne_none_of_contains {prop value : String} (f : Forest) (i : NodeId)
    (file : Option String) (h : Text.contains value s.variableName = true) :
    f.gateOf s i prop value file ≠ none := by
  unfold gateOf
  intro hnone
  have hmem : Gate.variableName ∈ s.gates :=
    List.mem_filter.2 ⟨by simp [Gate.all], rfl⟩
  have hopen := List.find?_eq_none.1 hnone _ hmem
  rw [shuts, h, Bool.true_or] at hopen
  exact hopen rfl

theorem changesAt_eq_false_of_contains {prop value : String} {important : Bool}
    (hc : f.contentOf i = some (.declaration prop value important))
    (h : Text.contains value s.variableName = true) : f.changesAt s file i = false := by
  rw [changesAt_declaration s file hc,
    beq_eq_false_iff_ne.2 (gateOf_ne_none_of_contains f i file h), Bool.false_and]

/-- A declaration whose value was converted does not change again. -/
theorem changesAt_eq_false_of_convert {prop value : String} {important : Bool}
    (hc : f.contentOf i = some (.declaration prop (s.convert value) important)) :
    f.changesAt s file i = false := by
  by_cases hvalue : s.convert value = value
  · rw [changesAt_declaration s file hc, hvalue, hvalue, bne_self_eq_false, Bool.and_false]
  · exact changesAt_eq_false_of_contains hc (Lengths.contains_of_convert_ne hvalue)

/-- After the transform no declaration that was visited changes again. -/
theorem changesAt_eq_false_of_converted (h : g.plain = f.convertedIn s file done) (hi : i ∈ done) :
    g.changesAt s file i = false := by
  have hcontent := contentOf_of_plain h i
  rw [if_pos hi] at hcontent
  cases hc : f.contentOf i with
  | none =>
    rw [hc] at hcontent
    exact changesAt_of_not_declaration s file (by simp [hcontent])
  | some c =>
    rw [hc, Option.map_some] at hcontent
    cases c with
    | root | rule | atRule | comment =>
      exact changesAt_of_not_declaration s file (by simp [hcontent, convertedContent])
    | declaration prop value important =>
      rw [convertedContent] at hcontent
      split at hcontent
      · exact changesAt_eq_false_of_convert hcontent
      · next hgate =>
        rw [changesAt_declaration s file hcontent, (sameButValues_of_plain h).gateOf,
          beq_eq_false_iff_ne.2 hgate, Bool.false_and]

/-- Converting what does not change leaves the forest as it is. -/
theorem convertedIn_eq_plain (h : ∀ i ∈ done, f.changesAt s file i = false) :
    f.convertedIn s file done = f.plain := by
  refine ext_get? fun i => ?_
  rw [get?_convertedIn, get?_plain]
  refine Option.map_congr fun t ht => ?_
  split
  · next hi =>
    have hsame := h i hi
    unfold changesAt contentOf at hsame
    rw [bne_eq_false_iff_eq, ht] at hsame
    rw [show f.convertedContent s file i t.content = t.content from Option.some.inj hsame]
    rfl
  · rfl

/-- Nodes are the same in both, but for keys of iterations that were given out. -/
def SameNodes (f g : Forest) : Prop :=
  ∀ i, Option.Rel (fun a b => b = { a with lastKey := b.lastKey } ∧ a.lastKey ≤ b.lastKey)
    (f.get? i) (g.get? i)

/-- Nodes that are kept, with contents that are the same, are the same. -/
theorem SameNodes.of_kept (hkept : Kept f g) (h : g.plain = f.plain) : SameNodes f g := by
  refine hkept.rel fun {i a b} ha hb hcursors hkey => ⟨?_, hkey⟩
  have hi := congrArg (·.get? i) h
  simp only [get?_plain, ha, hb, Option.map_some] at hi
  have hsame : b.plain = { a.plain with content := a.content } := Option.some.inj hi
  exact Slot.eq_of_plain hsame hcursors

/-- The bookkeeping of iterations does not show in the tree below a node. -/
theorem view_eq_of_plain (h : g.plain = f.plain) (root : NodeId) : g.view root = f.view root := by
  unfold view
  rw [← viewTo_plain g, ← viewTo_plain f, ← size_plain g, ← size_plain f, h]

/-- A root stays what it is. -/
theorem contentOf_root_of_plain (h : g.plain = f.convertedIn s file done) {path : Option String}
    (hroot : f.contentOf root = some (.root path)) : g.contentOf root = some (.root path) := by
  rw [contentOf_of_plain h, hroot]
  exact ite_self _

/-- Replacing values, the transform comes to its end; run a second time, it converts nothing and
changes nothing, and the text below the root stays what it is. -/
theorem transform_again (hf : f.Consistent) (hroot : f.contentOf root = some (.root file))
    (hs : s.replaces = true) :
    ∃ count log g, (transform s root).run f = .ok (count, log) g ∧
      ∃ log' g', (transform s root).run g = .ok (0, log') g' ∧ SameNodes g g' ∧
        (g'.view root).text false = (g.view root).text false := by
  have hsize : ∀ {e : Forest}, e.contentOf root = some (.root file) → root < e.size := by
    intro e he
    obtain ⟨t, ht, -⟩ := Option.map_eq_some_iff.1 he
    exact lt_size_of_get? ht
  obtain ⟨count, log, g, hrun, hkept, hplain, -⟩ := hf.transform_apply hs (hsize hroot)
  have hg := hkept.consistent hf
  have hroot' := contentOf_root_of_plain hplain hroot
  obtain ⟨count', log', g', hrun', hkept', hplain', hcount⟩ := hg.transform_apply hs (hsize hroot')
  rw [fileOf_eq hroot] at hplain
  rw [fileOf_eq hroot'] at hplain' hcount
  have hdone : ∀ i ∈ (g.visitsOf root).map Prod.fst, g.changesAt s file i = false := by
    intro i hi
    rw [hg.mem_visitsOf_iff, hkept.sameShape.isBelow_iff] at hi
    exact changesAt_eq_false_of_converted hplain ((hf.mem_visitsOf_iff root i).2 hi)
  have hzero : count' = 0 := by
    rw [show count' = _ from hcount, List.countP_eq_zero]
    simpa using hdone
  rw [convertedIn_eq_plain hdone] at hplain'
  refine ⟨count, log, g, hrun, log', g', hzero ▸ hrun', .of_kept hkept' hplain', ?_⟩
  rw [view_eq_of_plain hplain']

theorem consistent_nestedTree : (ofTree nestedTree).2.Consistent :=
  consistent_ofTree (by simp [nestedTree, Tree.All, Tree.AllOf, Tree.Branches, Content.isContainer])

/-- A length is its own fallback, so that the value that was written has lengths again. -/
theorem transform_again_nestedTree : (ofTree nestedTree).2.Consistent ∧
    (ofTree nestedTree).2.contentOf 0 = some (.root (some "a.css")) ∧
    ({ nestedSettings with fallbackOrigin := true } : Settings).replaces = true ∧
    ∃ log g, (transform { nestedSettings with fallbackOrigin := true } 0).run
      (ofTree nestedTree).2 = .ok (1, log) g ∧
      ∃ log' g', (transform { nestedSettings with fallbackOrigin := true } 0).run g =
        .ok (0, log') g' ∧ SameNodes g g' ∧
        (g'.view 0).text false = (g.view 0).text false := by
  obtain ⟨count, log, g, hrun, hagain⟩ :=
    @transform_again _ { nestedSettings with fallbackOrigin := true } (some "a.css") 0
      consistent_nestedTree rfl rfl
  have hcount : (Edit.result? (transform { nestedSettings with fallbackOrigin := true } 0)
      (ofTree nestedTree).2).map (·.1) = some 1 := by
    decide +kernel
  rw [Edit.result?_ok hrun] at hcount
  obtain rfl : count = 1 := Option.some.inj hcount
  exact ⟨consistent_nestedTree, rfl, rfl, log, g, hrun, hagain⟩

end Forest

end PixelUnit
