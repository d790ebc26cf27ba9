import Mathlib.Logic.Function.Basic
import PixelUnit.Forest.Attribute
import PixelUnit.Proofs.Forest.Walk

/-!
# Copies behind nodes

A forest in which nodes of another one have got copies behind them (`Forest.WithCopies`). The
nodes that were there keep what they are and their order, the copies have new numbers and nothing
below them, so that the forest stays consistent (`WithCopies.consistent`). Copies may be put in one
by one (`WithCopies.insert`), and over and over again (`WithCopies.trans`).
-/

namespace PixelUnit

open Sheet

namespace Forest

variable {f g h : Forest} {twin : Content → Content} {copies copies' : NodeId → List NodeId}
  {c d i j : NodeId}

/-- Nodes, each with its copies behind it. -/
def withCopies (copies : NodeId → List NodeId) (ds : List NodeId) : List NodeId :=
  ds.flatMap fun d => d :: copies d

/-- The forest `g` is `f` with copies behind nodes. A node of `f` is what it was, but that its
children have their copies behind them. A copy has a number of its own and no children, its content
is made from that of the original, and the rest is what the original has. -/
structure WithCopies (f : Forest) (twin : Content → Content) (copies : NodeId → List NodeId)
    (g : Forest) : Prop where
  get?_old : ∀ i : Nat, i < f.size → g.plain.get? i =
    (f.plain.get? i).map fun t => { t with children := withCopies copies t.children }
  get?_copy : ∀ d j, j ∈ copies d → g.plain.get? j =
    (f.plain.get? d).map fun t => { t with content := twin t.content, children := [] }
  lt_size : ∀ d j, j ∈ copies d → d < f.size
  size_le : ∀ d j, j ∈ copies d → f.size ≤ j
  exists_copy : ∀ j : Nat, f.size ≤ j → j < g.size → ∃ d, j ∈ copies d
  eq_of_mem : ∀ d e j, j ∈ copies d → j ∈ copies e → d = e
  nodup_copies : ∀ d, (copies d).Nodup

/-! ## Lists with copies -/

theorem withCopies_append (ds es : List NodeId) :
    withCopies copies (ds ++ es) = withCopies copies ds ++ withCopies copies es :=
  List.flatMap_append

theorem withCopies_cons (d : NodeId) (ds : List NodeId) :
    withCopies copies (d :: ds) = d :: (copies d ++ withCopies copies ds) :=
  rfl

theorem mem_withCopies {ds : List NodeId} :
    i ∈ withCopies copies ds ↔ ∃ d ∈ ds, i = d ∨ i ∈ copies d := by
  simp [withCopies]

/-- A list stays as it is if none of its nodes has copies. -/
theorem withCopies_eq_self {ds : List NodeId} (h : ∀ d ∈ ds, copies d = []) :
    withCopies copies ds = ds := by
  have hcopies : ds.flatMap (fun d => d :: copies d) = ds.flatMap fun d => [d] :=
    List.flatMap_congr fun d hd => by rw [h d hd]
  exact hcopies.trans (List.flatMap_singleton' ds)

theorem withCopies_congr {ds : List NodeId} (h : ∀ d ∈ ds, copies d = copies' d) :
    withCopies copies ds = withCopies copies' ds :=
  List.flatMap_congr fun d hd => by rw [h d hd]

/-- Copies put behind nodes that have copies already, but not behind copies. -/
theorem withCopies_withCopies (h : ∀ d, ∀ j ∈ copies d, copies' j = []) (ds : List NodeId) :
    withCopies copies' (withCopies copies ds) = withCopies (fun d => copies' d ++ copies d) ds := by
  unfold withCopies
  rw [List.flatMap_assoc]
  refine List.flatMap_congr fun d _ => ?_
  rw [List.flatMap_cons, show (copies d).flatMap _ = copies d from withCopies_eq_self (h d)]
  rfl

namespace WithCopies

/-- No copies so far. -/
theorem refl (f : Forest) : WithCopies f twin (fun _ => []) f where
  get?_old i _ := by
    have hsame : ∀ t : Slot, { t with children := withCopies (fun _ => []) t.children } = t :=
      fun t => by rw [withCopies_eq_self fun _ _ => rfl]
    simp only [hsame, Option.map_id']
  get?_copy d j hj := by cases hj
  lt_size d j hj := by cases hj
  size_le d j hj := by cases hj
  exists_copy j hle hlt := absurd hlt (Nat.not_lt_of_le hle)
  eq_of_mem d e j hj := by cases hj
  nodup_copies d := List.nodup_nil

/-- The bookkeeping of iterations does not matter. -/
theorem of_plain (hg : WithCopies f twin copies g) (h' : h.plain = g.plain) :
    WithCopies f twin copies h where
  get?_old := h' ▸ hg.get?_old
  get?_copy := h' ▸ hg.get?_copy
  lt_size := hg.lt_size
  size_le := hg.size_le
  exists_copy j hle hlt := by
    refine hg.exists_copy j hle ?_
    rwa [← size_plain g, ← h', size_plain]
  eq_of_mem := hg.eq_of_mem
  nodup_copies := hg.nodup_copies

/-! ## Nodes that were there -/

/-- Copies leave the content of the old nodes alone. -/
theorem contentOf_old (hg : WithCopies f twin copies g) (hi : i < f.size) :
    g.contentOf i = f.contentOf i := by
  rw [← contentOf_plain g, ← contentOf_plain f]
  unfold contentOf
  rw [hg.get?_old i hi, Option.map_map]
  rfl

/-- Copies leave the parents of the old nodes alone. -/
theorem parentOf_old (hg : WithCopies f twin copies g) (hi : i < f.size) :
    g.parentOf i = f.parentOf i := by
  rw [← parentOf_plain g, ← parentOf_plain f]
  unfold parentOf
  rw [hg.get?_old i hi]
  cases f.plain.get? i <;> rfl

/-- The children of an old node are those it had, each with its copies behind it. -/
theorem childrenOf_old (hg : WithCopies f twin copies g) (hc : c < f.size) :
    g.childrenOf c = withCopies copies (f.childrenOf c) := by
  rw [← childrenOf_plain g, ← childrenOf_plain f]
  unfold childrenOf
  rw [hg.get?_old c hc]
  cases f.plain.get? c <;> rfl

theorem isContainer_old (hg : WithCopies f twin copies g) (hi : i < f.size) :
    g.isContainer i = f.isContainer i := by
  unfold isContainer
  rw [hg.contentOf_old hi]

theorem size_le_size (hg : WithCopies f twin copies g) : f.size ≤ g.size := by
  by_contra hlt
  obtain ⟨t, ht⟩ := get?_eq_some_of_lt (f := f) (Nat.lt_of_not_le hlt)
  have hold := hg.get?_old g.size (Nat.lt_of_not_le hlt)
  rw [get?_plain f, ht] at hold
  have := lt_size_of_get? hold
  rw [size_plain] at this
  exact Nat.lt_irrefl _ this

/-! ## Copies -/

/-- What a copy says is made from what its original says. -/
theorem contentOf_copy (hg : WithCopies f twin copies g) (hj : j ∈ copies d) :
    g.contentOf j = (f.contentOf d).map twin := by
  rw [← contentOf_plain g, ← contentOf_plain f]
  unfold contentOf
  rw [hg.get?_copy d j hj, Option.map_map, Option.map_map]
  rfl

/-- A copy hangs where its original hangs. -/
theorem parentOf_copy (hg : WithCopies f twin copies g) (hj : j ∈ copies d) :
    g.parentOf j = f.parentOf d := by
  rw [← parentOf_plain g, ← parentOf_plain f]
  unfold parentOf
  rw [hg.get?_copy d j hj]
  cases f.plain.get? d <;> rfl

/-- A copy has no children. -/
theorem childrenOf_copy (hg : WithCopies f twin copies g) (hj : j ∈ copies d) :
    g.childrenOf j = [] := by
  rw [← childrenOf_plain g]
  unfold childrenOf
  rw [hg.get?_copy d j hj]
  cases f.plain.get? d <;> rfl

theorem lt_size_of_copy (hg : WithCopies f twin copies g) (hj : j ∈ copies d) : j < g.size := by
  obtain ⟨t, ht⟩ := get?_eq_some_of_lt (hg.lt_size d j hj)
  have hcopy := hg.get?_copy d j hj
  rw [get?_plain f, ht] at hcopy
  have := lt_size_of_get? hcopy
  rwa [size_plain] at this

/-- Every node was there or is a copy. -/
theorem lt_size_or_copy (hg : WithCopies f twin copies g) (hi : i < g.size) :
    i < f.size ∨ ∃ d, i ∈ copies d := by
  rcases Nat.lt_or_ge i f.size with hlt | hle
  · exact Or.inl hlt
  · exact Or.inr (hg.exists_copy i hle hi)

/-! ## Consistency -/

/-- Children hang from nodes that were there. -/
theorem lt_size_of_mem_children (hg : WithCopies f twin copies g) (hi : i ∈ g.childrenOf c) :
    c < f.size := by
  rcases hg.lt_size_or_copy (lt_size_of_mem_childrenOf hi) with hc | ⟨d, hd⟩
  · exact hc
  · rw [hg.childrenOf_copy hd] at hi
    cases hi

/-- A node that was there is a child where it was one. -/
theorem mem_withCopies_iff_of_lt (hg : WithCopies f twin copies g) (hi : i < f.size)
    {ds : List NodeId} : i ∈ withCopies copies ds ↔ i ∈ ds := by
  rw [mem_withCopies]
  constructor
  · rintro ⟨d, hd, rfl | hmem⟩
    · exact hd
    · exact absurd (hg.size_le d i hmem) (Nat.not_le_of_lt hi)
  · exact fun hmem => ⟨i, hmem, Or.inl rfl⟩

/-- A copy is a child where the original is one. -/
theorem mem_withCopies_iff_of_copy (hg : WithCopies f twin copies g) (hj : j ∈ copies d)
    {ds : List NodeId} (hds : ∀ e ∈ ds, e < f.size) : j ∈ withCopies copies ds ↔ d ∈ ds := by
  rw [mem_withCopies]
  constructor
  · rintro ⟨e, he, rfl | hmem⟩
    · exact absurd (hg.size_le d j hj) (Nat.not_le_of_lt (hds j he))
    · exact hg.eq_of_mem d e j hj hmem ▸ he
  · exact fun hmem => ⟨d, hmem, Or.inr hj⟩

/-- A list without repetitions has none after copies were put in it, since every copy has a number
of its own. -/
theorem nodup_withCopies (hg : WithCopies f twin copies g) {ds : List NodeId} (hds : ds.Nodup)
    (hlt : ∀ e ∈ ds, e < f.size) : (withCopies copies ds).Nodup := by
  unfold withCopies
  rw [List.nodup_flatMap]
  constructor
  · intro d hd
    rw [List.nodup_cons]
    exact ⟨fun hmem => absurd (hg.size_le d d hmem) (Nat.not_le_of_lt (hlt d hd)),
      hg.nodup_copies d⟩
  · refine hds.imp_of_mem fun {d e} hd he hne i hid hie => hne ?_
    rcases List.mem_cons.1 hid with rfl | hid <;> rcases List.mem_cons.1 hie with rfl | hie
    · rfl
    · exact absurd (hg.size_le e i hie) (Nat.not_le_of_lt (hlt i hd))
    · exact absurd (hg.size_le d i hid) (Nat.not_le_of_lt (hlt i he))
    · exact hg.eq_of_mem d e i hid hie

/-- The nodes that have copies among them are children of the parents that their links name. -/
theorem mem_childrenOf_iff (hf : f.Consistent) (hg : WithCopies f twin copies g) (i c : NodeId) :
    i ∈ g.childrenOf c ↔ g.parentOf i = some c := by
  have hlt : ∀ e ∈ f.childrenOf c, e < f.size := fun e he =>
    lt_size_of_parentOf ((hf.mem_childrenOf_iff e c).1 he)
  have hparent : ∀ {e : NodeId}, f.parentOf e = some c → c < f.size := fun he =>
    (hf.lt_size_of_hangsFrom he).2
  by_cases hi : i < g.size
  · rcases hg.lt_size_or_copy hi with hold | ⟨d, hd⟩
    · rw [hg.parentOf_old hold, ← hf.mem_childrenOf_iff]
      constructor
      · intro hmem
        rw [hg.childrenOf_old (hg.lt_size_of_mem_children hmem)] at hmem
        exact (hg.mem_withCopies_iff_of_lt hold).1 hmem
      · intro hmem
        rw [hg.childrenOf_old (hparent ((hf.mem_childrenOf_iff i c).1 hmem))]
        exact (hg.mem_withCopies_iff_of_lt hold).2 hmem
    · rw [hg.parentOf_copy hd, ← hf.mem_childrenOf_iff]
      constructor
      · intro hmem
        rw [hg.childrenOf_old (hg.lt_size_of_mem_children hmem)] at hmem
        exact (hg.mem_withCopies_iff_of_copy hd hlt).1 hmem
      · intro hmem
        rw [hg.childrenOf_old (hparent ((hf.mem_childrenOf_iff d c).1 hmem))]
        exact (hg.mem_withCopies_iff_of_copy hd hlt).2 hmem
  · refine iff_of_false (fun hmem => ?_) fun h => hi (lt_size_of_parentOf h)
    rw [hg.childrenOf_old (hg.lt_size_of_mem_children hmem), mem_withCopies] at hmem
    obtain ⟨d, hd, rfl | hcopy⟩ := hmem
    · exact hi ((hlt i hd).trans_le hg.size_le_size)
    · exact hi (hg.lt_size_of_copy hcopy)

/-- What was below a node still is, and nothing else that was there. -/
theorem isBelow_iff (hf : f.Consistent) (hg : WithCopies f twin copies g) (hi : i < f.size) :
    g.IsBelow i c ↔ f.IsBelow i c := by
  have hup : ∀ {i c : NodeId}, i < f.size → (g.HangsFrom i c ↔ f.HangsFrom i c) := by
    intro i c hi
    unfold HangsFrom
    rw [hg.parentOf_old hi]
  constructor
  · intro hbelow
    induction hbelow using Relation.TransGen.head_induction_on with
    | single hic => exact Relation.TransGen.single ((hup hi).1 hic)
    | @head i b hib _ ih =>
      have hib' := (hup hi).1 hib
      exact Relation.TransGen.head hib' (ih (hf.lt_size_of_hangsFrom hib').2)
  · exact fun hbelow =>
      Relation.TransGen.mono (fun a b hab => (hup (lt_size_of_parentOf hab)).2 hab) i c hbelow

/-- Copies behind nodes leave a forest consistent. -/
theorem consistent (hf : f.Consistent) (hg : WithCopies f twin copies g) (hkeys : g.KeysGiven) :
    g.Consistent where
  mem_childrenOf_iff := hg.mem_childrenOf_iff hf
  nodup_childrenOf c := by
    by_cases hc : c < f.size
    · rw [hg.childrenOf_old hc]
      exact hg.nodup_withCopies (hf.nodup_childrenOf c) fun e he =>
        lt_size_of_parentOf ((hf.mem_childrenOf_iff e c).1 he)
    · rw [List.eq_nil_iff_forall_not_mem.2 fun i hi => hc (hg.lt_size_of_mem_children hi)]
      exact List.nodup_nil
  isContainer_of_mem i c hi := by
    have hc := hg.lt_size_of_mem_children hi
    rw [hg.childrenOf_old hc, mem_withCopies] at hi
    obtain ⟨d, hd, -⟩ := hi
    rw [hg.isContainer_old hc]
    exact hf.isContainer_of_mem d c hd
  acyclic i hbelow := by
    -- the upper end of a chain of parents was there before, so the whole circle was
    obtain ⟨b, -, hb⟩ := Relation.TransGen.tail'_iff.1 hbelow
    have hi := hg.lt_size_of_mem_children ((hg.mem_childrenOf_iff hf b i).2 hb)
    exact hf.acyclic i ((hg.isBelow_iff hf hi).1 hbelow)
  keysGiven := hkeys

/-! ## More copies -/

/-- A list in which one node gets its first copy. -/
theorem withCopies_update {ds front rest : List NodeId} (hds : ds.Nodup) (hd : d ∈ ds)
    (hcopies : copies d = []) (hfree : ∀ e, d ∉ copies e)
    (h : withCopies copies ds = front ++ d :: rest) (j : NodeId) :
    withCopies (Function.update copies d [j]) ds = front ++ d :: j :: rest := by
  obtain ⟨before, behind, rfl⟩ := List.append_of_mem hd
  have hnot : d ∉ before ∧ d ∉ behind := by
    rw [List.nodup_append, List.nodup_cons] at hds
    exact ⟨fun hmem => hds.2.2 d hmem d List.mem_cons_self rfl, hds.2.1.1⟩
  have hout : ∀ es : List NodeId, d ∉ es → d ∉ withCopies copies es := by
    intro es hes hmem
    obtain ⟨e, he, rfl | hcopy⟩ := mem_withCopies.1 hmem
    · exact hes he
    · exact hfree e hcopy
  have hkeep : ∀ es : List NodeId, d ∉ es →
      withCopies (Function.update copies d [j]) es = withCopies copies es := fun es hes =>
    withCopies_congr fun e he => Function.update_of_ne (fun heq : e = d => hes (heq ▸ he)) _ _
  rw [withCopies_append, withCopies_cons, hcopies, List.nil_append,
    List.append_cons_inj_of_notMem (hout before hnot.1) (hout behind hnot.2)] at h
  obtain ⟨rfl, -, rfl⟩ := h
  rw [withCopies_append, withCopies_cons, Function.update_self, hkeep before hnot.1,
    hkeep behind hnot.2]
  rfl

/-- The copies, once one node has got its first copy. -/
theorem mem_update_copies (hg : WithCopies f twin copies g) {e : NodeId}
    (hj : j ∈ Function.update copies d [g.size] e) :
    e = d ∧ j = g.size ∨ e ≠ d ∧ j ∈ copies e ∧ j < g.size := by
  by_cases he : e = d
  · rw [he, Function.update_self, List.mem_singleton] at hj
    exact Or.inl ⟨he, hj⟩
  · rw [Function.update_of_ne he] at hj
    exact Or.inr ⟨he, hj, hg.lt_size_of_copy hj⟩

section Insert

variable {p : NodeId} {front rest : List NodeId}

/-- The children of a node that was there, once one node has got its first copy. -/
theorem get?_old_insert (hf : f.Consistent) (hg : WithCopies f twin copies g)
    (hdp : f.parentOf d = some p) (hcopies : copies d = [])
    (hchildren : g.childrenOf p = front ++ d :: rest)
    (hparent : h.plain.get? p =
      (g.plain.get? p).map fun t => { t with children := front ++ d :: g.size :: rest })
    (hother : ∀ j : Nat, j ≠ g.size → j ≠ p → h.plain.get? j = g.plain.get? j) (hi : i < f.size) :
    h.plain.get? i = (f.plain.get? i).map fun t =>
      { t with children := withCopies (Function.update copies d [g.size]) t.children } := by
  have hsame : ∀ u : Slot, f.plain.get? i = some u → f.childrenOf i = u.children := fun u hu =>
    (childrenOf_plain f i).symm.trans (childrenOf_of_get? hu)
  by_cases hip : i = p
  · subst hip
    rw [hparent, hg.get?_old i hi, Option.map_map]
    refine Option.map_congr fun u hu => ?_
    have hnodes : withCopies (Function.update copies d [g.size]) (f.childrenOf i) =
        front ++ d :: g.size :: rest := by
      refine withCopies_update (hf.nodup_childrenOf i) ((hf.mem_childrenOf_iff d i).2 hdp)
        hcopies (fun e he => absurd (hg.size_le e d he) (Nat.not_le_of_lt ?_)) ?_ _
      · exact lt_size_of_parentOf hdp
      · rw [← hg.childrenOf_old hi, hchildren]
    rw [← hsame u hu, hnodes]
    rfl
  · rw [hother i (Nat.ne_of_lt (hi.trans_le hg.size_le_size)) hip, hg.get?_old i hi]
    refine Option.map_congr fun u hu => ?_
    rw [← hsame u hu]
    refine congrArg (fun l => { u with children := l }) (withCopies_congr fun e he => ?_)
    refine (Function.update_of_ne (fun heq : e = d => hip ?_) _ _).symm
    rw [heq, hf.mem_childrenOf_iff, hdp] at he
    exact (Option.some.inj he).symm

/-- One node gets its first copy: a new node that is put in behind it. -/
theorem insert (hf : f.Consistent) (hg : WithCopies f twin copies g)
    (hdp : f.parentOf d = some p) (hcopies : copies d = [])
    (hchildren : g.childrenOf p = front ++ d :: rest) (hsize : h.size = g.size + 1)
    (hnew : h.plain.get? g.size =
      (g.plain.get? d).map fun t => { t with content := twin t.content, children := [] })
    (hparent : h.plain.get? p =
      (g.plain.get? p).map fun t => { t with children := front ++ d :: g.size :: rest })
    (hother : ∀ j : Nat, j ≠ g.size → j ≠ p → h.plain.get? j = g.plain.get? j) :
    WithCopies f twin (Function.update copies d [g.size]) h where
  get?_old i hi := hg.get?_old_insert hf hdp hcopies hchildren hparent hother hi
  get?_copy e j hj := by
    -- A copy is the new one or an old one, which the insertion leaves as it is.
    rcases hg.mem_update_copies hj with ⟨rfl, rfl⟩ | ⟨-, hj, hlt⟩
    · rw [hnew, hg.get?_old e (lt_size_of_parentOf hdp), Option.map_map]
      rfl
    · have hne : j ≠ p :=
        Nat.ne_of_gt ((hf.lt_size_of_hangsFrom hdp).2.trans_le (hg.size_le e j hj))
      rw [hother j (Nat.ne_of_lt hlt) hne, hg.get?_copy e j hj]
  lt_size e j hj := by
    rcases hg.mem_update_copies hj with ⟨rfl, -⟩ | ⟨-, hj, -⟩
    · exact lt_size_of_parentOf hdp
    · exact hg.lt_size e j hj
  size_le e j hj := by
    rcases hg.mem_update_copies hj with ⟨-, rfl⟩ | ⟨-, hj, -⟩
    · exact hg.size_le_size
    · exact hg.size_le e j hj
  exists_copy j hle hlt := by
    by_cases hj : j = g.size
    · exact ⟨d, by rw [Function.update_self, hj]; exact List.mem_cons_self⟩
    · obtain ⟨e, he⟩ := hg.exists_copy j hle (by omega)
      refine ⟨e, ?_⟩
      rw [Function.update_of_ne]
      · exact he
      · rintro rfl
        rw [hcopies] at he
        cases he
  eq_of_mem e e' j hj hj' := by
    rcases hg.mem_update_copies hj with ⟨he, hj⟩ | ⟨-, hj, hlt₁⟩ <;>
      rcases hg.mem_update_copies hj' with ⟨he', hj'⟩ | ⟨-, hj', hlt₂⟩
    · rw [he, he']
    · exact absurd hlt₂ (hj ▸ Nat.lt_irrefl _)
    · exact absurd hlt₁ (hj' ▸ Nat.lt_irrefl _)
    · exact hg.eq_of_mem e e' j hj hj'
  nodup_copies e := by
    by_cases he : e = d
    · rw [he, Function.update_self]
      exact List.nodup_singleton _
    · rw [Function.update_of_ne he]
      exact hg.nodup_copies e

end Insert

/-- Copies put behind nodes that may have copies already, but not behind copies. -/
theorem trans (hg : WithCopies f twin copies g) (hh : WithCopies g twin copies' h)
    (hold : ∀ d, copies' d ≠ [] → d < f.size) :
    WithCopies f twin (fun d => copies' d ++ copies d) h where
  get?_old i hi := by
    rw [hh.get?_old i (hi.trans_le hg.size_le_size), hg.get?_old i hi, Option.map_map]
    have hcopies : ∀ d, ∀ j ∈ copies d, copies' j = [] := by
      intro d j hj
      by_contra hne
      exact absurd (hg.size_le d j hj) (Nat.not_le_of_lt (hold j hne))
    exact Option.map_congr fun t _ =>
      congrArg (fun l => { t with children := l }) (withCopies_withCopies hcopies t.children)
  get?_copy d j hj := by
    -- A copy is one of the new ones, whose original is old, or one of the old ones, which stays.
    rcases List.mem_append.1 hj with hj | hj
    · have hd := hold d (List.ne_nil_of_mem hj)
      rw [hh.get?_copy d j hj, hg.get?_old d hd, Option.map_map]
      rfl
    · rw [hh.get?_old j (hg.lt_size_of_copy hj), hg.get?_copy d j hj, Option.map_map]
      rfl
  lt_size d j hj := by
    rcases List.mem_append.1 hj with hj | hj
    · exact hold d (List.ne_nil_of_mem hj)
    · exact hg.lt_size d j hj
  size_le d j hj := by
    rcases List.mem_append.1 hj with hj | hj
    · exact hg.size_le_size.trans (hh.size_le d j hj)
    · exact hg.size_le d j hj
  exists_copy j hle hlt := by
    by_cases hj : j < g.size
    · obtain ⟨d, hd⟩ := hg.exists_copy j hle hj
      exact ⟨d, List.mem_append_right _ hd⟩
    · obtain ⟨d, hd⟩ := hh.exists_copy j (Nat.le_of_not_lt hj) hlt
      exact ⟨d, List.mem_append_left _ hd⟩
  eq_of_mem d e j hd he := by
    have hnot : ∀ {a b : NodeId}, j ∈ copies' a → j ∉ copies b := fun ha hb =>
      absurd (hh.size_le _ j ha) (Nat.not_le_of_lt (hg.lt_size_of_copy hb))
    -- No copy is both new and old, since new ones have numbers behind all old ones.
    rcases List.mem_append.1 hd with hd | hd <;> rcases List.mem_append.1 he with he | he
    · exact hh.eq_of_mem d e j hd he
    · exact absurd he (hnot hd)
    · exact absurd hd (hnot he)
    · exact hg.eq_of_mem d e j hd he
  nodup_copies d := by
    refine List.nodup_append.2 ⟨hh.nodup_copies d, hg.nodup_copies d, ?_⟩
    rintro j hj e he rfl
    exact absurd (hh.size_le d j hj) (Nat.not_le_of_lt (hg.lt_size_of_copy he))

end WithCopies

/-! ## Putting a copy in -/

/-- A change of the node that was added last is a change of what was added. -/
theorem update_add_self (f : Forest) (t : Slot) (a : Slot → Slot) :
    (f.add t).2.update f.size a = (f.add (a t)).2 := by
  refine ext_get? fun j => ?_
  rw [get?_update, get?_add, get?_add]
  by_cases hj : f.size = j
  · rw [if_pos hj, if_pos hj.symm, if_pos hj.symm]
    rfl
  · rw [if_neg hj, if_neg (Ne.symm hj), if_neg (Ne.symm hj)]

/-- A copy of a node without children is one new node. -/
theorem copyTo_leaf {t : Slot} (ht : g.get? i = some t) (hleaf : t.children = [])
    (p : Option NodeId) (depth : Nat) :
    g.copyTo p (depth + 1) i = (g.size, (g.add { t with parent := p, cursors := [] }).2) := by
  unfold copyTo
  rw [ht]
  dsimp only
  rw [hleaf]
  unfold copyAllTo
  dsimp only
  rw [show (g.add { t with parent := p, children := [], cursors := [] }).1 = g.size from rfl,
    update_add_self, ← hleaf]

/-- A clone of a node without children, with one of its fields given anew, is one new slot. -/
theorem clone_leaf {t : Slot} {a : Attribute} {content : Content} (ht : g.get? i = some t)
    (hleaf : t.children = []) (ha : a.setIn? t.content = some content) :
    clone i [a] g =
      .ok g.size (g.add { t with content, parent := none, cursors := [] }).2 := by
  have hself : (g.add { t with parent := none, cursors := [] }).2.get? g.size =
      some { t with parent := none, cursors := [] } := by
    rw [get?_add, if_pos rfl]
  have hset? : Slot.set? { t with parent := none, cursors := [] } a =
      some { t with content, parent := none, cursors := [] } :=
    Slot.set?_of_setIn? ha
  have hhas : Slot.has { t with parent := none, cursors := [] } a = true := by
    unfold Slot.has
    rw [hset?]
    rfl
  have hset : Slot.set { t with parent := none, cursors := [] } a =
      { t with content, parent := none, cursors := [] } := by
    unfold Slot.set
    rw [hset?]
    rfl
  have hoverride : overrideAll g.size [a] (g.add { t with parent := none, cursors := [] }).2 =
      .ok () (g.add { t with content, parent := none, cursors := [] }).2 := by
    unfold overrideAll
    rw [Edit.get_bind_apply, hself]
    dsimp only
    rw [hhas, if_pos rfl, setAttribute, Edit.bind_ok (Edit.modify_apply _), update_add_self, hset]
    rfl
  unfold clone
  rw [Edit.bind_ok (Edit.modifyGet_apply _), copyTo_leaf ht hleaf]
  exact Edit.bind_ok hoverride _

/-- A new node without a parent is put in behind a position. -/
theorem insertAfter_new {t : Slot} (ht : t.parent = none) (p : NodeId) (n : Int) :
    insertAfter p (.index n) [g.size] (g.add t).2 =
      .ok () ((g.add { t with parent := some p }).2.update p (·.insertAfter n [g.size])) := by
  have hparent : (g.add t).2.parentOf g.size = none := by
    unfold parentOf
    rw [get?_add, if_pos rfl]
    exact ht
  have hremove : remove g.size (g.add t).2 = .ok () (g.add t).2 := by
    unfold remove
    rw [Edit.get_bind_apply, hparent]
    rfl
  have hadopt : adopt p [g.size] (g.add t).2 = .ok () (g.add { t with parent := some p }).2 := by
    unfold adopt
    rw [Edit.bind_ok hremove, Edit.bind_ok (Edit.modify_apply _), update_add_self]
    rfl
  unfold insertAfter
  rw [Edit.bind_ok hadopt]
  rfl

end Forest

end PixelUnit
