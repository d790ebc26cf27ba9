import PixelUnit.Proofs.Transform.Again
import PixelUnit.Proofs.Transform.Insert

/-!
# What the count says

The transform of a tree always comes to its end, and if it counts nothing, the tree is what it was
(`exists_transformTree`), whether values are replaced or copies are put in.
-/

namespace PixelUnit

open Sheet

namespace Forest

variable {f g : Forest} {s : Settings} {file : Option String}

theorem changesAt_eq_false_of_countP {done : List NodeId}
    (h : done.countP (f.changesAt s file) = 0) :
    ∀ i ∈ done, f.changesAt s file i = false := fun i hi =>
  Bool.eq_false_iff.2 (List.countP_eq_zero.1 h i hi)

/-- A forest with no copies in it is what it was. -/
theorem WithCopies.plain_eq {twin : Content → Content} {copies : NodeId → List NodeId}
    (h : WithCopies f twin copies g) (hnone : ∀ d, copies d = []) : g.plain = f.plain := by
  have hnew {j : NodeId} (hj : f.size ≤ j) : g.size ≤ j := by
    by_contra hlt
    obtain ⟨d, hd⟩ := h.exists_copy j hj (Nat.lt_of_not_le hlt)
    rw [hnone d] at hd
    cases hd
  refine ext_get? fun i => ?_
  rcases Nat.lt_or_ge i f.size with hi | hi
  · rw [h.get?_old i hi]
    have hsame : (fun t : Slot => { t with children := withCopies copies t.children }) = id :=
      funext fun t => by rw [withCopies_eq_self fun d _ => hnone d]; rfl
    rw [hsame, Option.map_id, id]
  · have habsent {e : Forest} (he : e.size ≤ i) : e.plain.get? i = none :=
      Array.getElem?_eq_none (by rwa [← size_plain] at he)
    rw [habsent hi, habsent (hnew hi)]

theorem Inserted.plain_eq {done : List NodeId} {log : Log}
    (h : f.Inserted s file done (0, log) g) : g.plain = f.plain := by
  obtain ⟨copies, hcopies, hlength, hcount⟩ := h
  refine hcopies.plain_eq fun d => ?_
  by_contra hne
  obtain ⟨hd, hchanges⟩ := changesAt_of_copies hlength hne
  rw [changesAt_eq_false_of_countP hcount.symm d hd] at hchanges
  cases hchanges

/-- The transform of a consistent forest comes to its end; with nothing counted, the forest is what
it was. -/
theorem Consistent.exists_transform (hf : f.Consistent) (s : Settings) {root : NodeId}
    (hroot : root < f.size) :
    ∃ count log g, transform s root f = .ok (count, log) g ∧
      (count = 0 → g.plain = f.plain) := by
  cases hs : s.replaces with
  | true =>
    obtain ⟨count, log, g, hrun, -, hplain, hcount⟩ := hf.transform_apply hs hroot
    refine ⟨count, log, g, hrun, ?_⟩
    rintro rfl
    rw [hplain, convertedIn_eq_plain (changesAt_eq_false_of_countP hcount.symm)]
  | false =>
    obtain ⟨count, log, g, hrun, -, hinserted⟩ := hf.transform_inserts hs hroot
    refine ⟨count, log, g, hrun, ?_⟩
    rintro rfl
    exact hinserted.plain_eq

end Forest

/-! ## Trees -/

/-- The transform of a tree comes to its end; with nothing counted, the tree is what it was. -/
theorem exists_transformTree (s : Settings) {tree : Tree} (h : tree.All Tree.Branches) :
    ∃ done, s.transformTree tree = .ok done ∧ (done.count = 0 → done.tree = tree) := by
  obtain ⟨hfirst, hsize, -⟩ := Forest.ofTree_holds tree
  have hroot : (Forest.ofTree tree).1 < (Forest.ofTree tree).2.size := by
    rw [hfirst, hsize]
    exact tree.size_pos
  obtain ⟨count, log, g, hrun, hplain⟩ := (Forest.consistent_ofTree h).exists_transform s hroot
  refine ⟨⟨g.view (Forest.ofTree tree).1, count, log⟩, ?_, fun hcount => ?_⟩
  · have hrun' : (Forest.transform s (Forest.ofTree tree).1).run (Forest.ofTree tree).2 =
        .ok (count, log) g := hrun
    unfold Settings.transformTree
    dsimp only
    rw [hrun']
  · show g.view _ = tree
    rw [Forest.view_eq_of_plain (hplain hcount), Forest.view_ofTree]

end PixelUnit
