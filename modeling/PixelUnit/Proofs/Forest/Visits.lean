import Mathlib.Data.List.Flatten
import PixelUnit.Proofs.Forest.Consistent

/-!
# The order of a walk

`Forest.visitsOf` lists the nodes below a container with their positions among their siblings,
every node before those below it. In a consistent forest these are all the nodes below the container
(`Consistent.mem_visitsOf_iff`), and none comes twice (`Consistent.nodup_visitsOf`).
-/

namespace PixelUnit

open Sheet

namespace Forest

variable {f : Forest} {depth : Nat} {i c : NodeId}

/-- The nodes below a container with their positions, down to a given depth. -/
def visitsTo (f : Forest) : Nat → NodeId → List (NodeId × Nat)
  | 0, _ => []
  | depth + 1, c => (f.childrenOf c).zipIdx.flatMap fun p => p :: f.visitsTo depth p.1

/-- The nodes below a container with their positions, every node before those below it. -/
def visitsOf (f : Forest) (c : NodeId) : List (NodeId × Nat) :=
  f.visitsTo (f.size + 1) c

theorem visitsTo_eq_nil (h : f.childrenOf c = []) : f.visitsTo depth c = [] := by
  cases depth with
  | zero => rfl
  | succ depth =>
    rw [visitsTo, h]
    rfl

/-- The nodes below a container, down to a given depth, in the order of their visits. -/
def nodesTo (f : Forest) (depth : Nat) (c : NodeId) : List NodeId :=
  (f.visitsTo depth c).map Prod.fst

/-- The nodes below a container are its children, each with the nodes below it. -/
theorem nodesTo_succ (f : Forest) (depth : Nat) (c : NodeId) :
    f.nodesTo (depth + 1) c = (f.childrenOf c).flatMap fun i => i :: f.nodesTo depth i := by
  have hfst : ∀ (ds : List NodeId) (n : Nat),
      ((ds.zipIdx n).flatMap fun p => p.1 :: f.nodesTo depth p.1) =
        ds.flatMap fun i => i :: f.nodesTo depth i := by
    intro ds n
    induction ds generalizing n with
    | nil => rfl
    | cons d ds ih => rw [List.zipIdx_cons, List.flatMap_cons, List.flatMap_cons, ih]
  rw [← hfst _ 0, nodesTo, visitsTo, List.map_flatMap]
  rfl

namespace Consistent

/-- Some child of a container at some position has a property if some node that hangs from it has
it. -/
theorem exists_mem_zipIdx_iff (hf : f.Consistent) {P : NodeId → Prop} :
    (∃ p ∈ (f.childrenOf c).zipIdx, P p.1) ↔ ∃ j, f.HangsFrom j c ∧ P j := by
  constructor
  · rintro ⟨p, hp, hP⟩
    exact ⟨p.1, (hf.mem_childrenOf_iff p.1 c).1 (List.fst_mem_of_mem_zipIdx hp), hP⟩
  · rintro ⟨j, hj, hP⟩
    have hmem : j ∈ (f.childrenOf c).zipIdx.map Prod.fst := by
      rw [List.zipIdx_map_fst]
      exact (hf.mem_childrenOf_iff j c).2 hj
    obtain ⟨p, hp, rfl⟩ := List.mem_map.1 hmem
    exact ⟨p, hp, hP⟩

/-- Down to a sufficient depth all nodes below a container are visited, and no others. -/
theorem mem_visitsTo_iff (hf : f.Consistent) :
    ∀ {depth : Nat} {c : NodeId}, f.EndsWithin depth c →
      (i ∈ (f.visitsTo depth c).map Prod.fst ↔ f.IsBelow i c)
  | 0, _, h => absurd h.pos (Nat.lt_irrefl 0)
  | depth + 1, c, h => by
    have hdown : ∀ j, f.HangsFrom j c →
        (i ∈ ((f.visitsTo depth j).map Prod.fst) ↔ f.IsBelow i j) := fun j hj =>
      hf.mem_visitsTo_iff (h.child hj)
    rw [visitsTo, List.map_flatMap, List.mem_flatMap, isBelow_iff_exists]
    simp only [List.map_cons, List.mem_cons]
    rw [hf.exists_mem_zipIdx_iff (P := fun j => i = j ∨ i ∈ (f.visitsTo depth j).map Prod.fst)]
    refine exists_congr fun j => and_congr_right fun hj => ?_
    rw [hdown j hj]

/-- No node is visited twice. -/
theorem nodup_visitsTo (hf : f.Consistent) :
    ∀ {depth : Nat} {c : NodeId}, f.EndsWithin depth c →
      ((f.visitsTo depth c).map Prod.fst).Nodup
  | 0, _, h => absurd h.pos (Nat.lt_irrefl 0)
  | depth + 1, c, h => by
    have hchild : ∀ p ∈ (f.childrenOf c).zipIdx, f.HangsFrom p.1 c := fun p hp =>
      (hf.mem_childrenOf_iff p.1 c).1 (List.fst_mem_of_mem_zipIdx hp)
    have hmem : ∀ p ∈ (f.childrenOf c).zipIdx, ∀ k,
        k ∈ (p :: f.visitsTo depth p.1).map Prod.fst ↔ k = p.1 ∨ f.IsBelow k p.1 := by
      intro p hp k
      rw [List.map_cons, List.mem_cons, hf.mem_visitsTo_iff (h.child (hchild p hp))]
    have hdistinct : (f.childrenOf c).zipIdx.Pairwise fun p q => p.1 ≠ q.1 := by
      rw [← List.pairwise_map (f := Prod.fst), List.zipIdx_map_fst]
      exact hf.nodup_childrenOf c
    rw [visitsTo, List.map_flatMap, List.nodup_flatMap]
    constructor
    · intro p hp
      rw [List.map_cons, List.nodup_cons, hf.mem_visitsTo_iff (h.child (hchild p hp))]
      exact ⟨hf.acyclic p.1, hf.nodup_visitsTo (h.child (hchild p hp))⟩
    · refine hdistinct.imp_of_mem fun {p q} hp hq hne k hkp hkq => hne ?_
      exact hf.eq_of_isBelow (hchild p hp) (hchild q hq) ((hmem p hp k).1 hkp) ((hmem q hq k).1 hkq)

theorem visitsTo_eq (hf : f.Consistent) : ∀ {depth depth' : Nat} {c : NodeId},
    f.EndsWithin depth c → depth ≤ depth' → f.visitsTo depth' c = f.visitsTo depth c
  | 0, _, _, h, _ => absurd h.pos (Nat.lt_irrefl 0)
  | depth + 1, 0, _, _, hle => absurd hle (Nat.not_succ_le_zero depth)
  | depth + 1, depth' + 1, c, h, hle => by
    rw [visitsTo, visitsTo, List.flatMap_def, List.flatMap_def]
    refine congrArg List.flatten (List.map_congr_left fun p hp => ?_)
    have hchild := (hf.mem_childrenOf_iff p.1 c).1 (List.fst_mem_of_mem_zipIdx hp)
    rw [hf.visitsTo_eq (h.child hchild) (Nat.le_of_succ_le_succ hle)]

/-- To every depth beyond the size of the forest the nodes below a container are the same. -/
theorem visitsTo_eq_visitsOf (hf : f.Consistent) (h : f.size < depth) (c : NodeId) :
    f.visitsTo depth c = f.visitsOf c :=
  hf.visitsTo_eq (hf.endsWithin c) h

theorem mem_visitsOf_iff (hf : f.Consistent) (c i : NodeId) :
    i ∈ (f.visitsOf c).map Prod.fst ↔ f.IsBelow i c :=
  hf.mem_visitsTo_iff (hf.endsWithin c)

theorem nodup_visitsOf (hf : f.Consistent) (c : NodeId) :
    ((f.visitsOf c).map Prod.fst).Nodup :=
  hf.nodup_visitsTo (hf.endsWithin c)

end Consistent

end Forest

end PixelUnit
