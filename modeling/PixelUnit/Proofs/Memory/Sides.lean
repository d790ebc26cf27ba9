import PixelUnit.Proofs.Memory.Detaching

/-!
# Two sides of a memory

The objects of a memory stand on two sides, and none of them holds an object of the other side
(`Memory.Apart`). Whoever has only objects of one side at hand writes to objects of that side, or
makes new ones there, and puts nothing in them but objects of that side (`Write.On`). Such writes
keep the sides apart, and leave all objects of the other side as they are; so the trees there are
read as before (`Apart.treeAt_runWrites`).
-/

namespace PixelUnit

open Sheet

/-- An object is written to an address: to that of an object that is there, or to that of the next
object, which is made by this. -/
structure Write where
  address : Address
  object : Object

namespace Write

/-- The memory after a write. -/
def run (w : Write) (m : Memory) : Memory :=
  if w.address < m.size then m.update w.address fun _ => w.object
  else if w.address = m.size then m.add w.object
  else m

/-- Something is written to one side that holds only objects of that side. -/
def On (S : Address → Prop) (w : Write) : Prop :=
  S w.address ∧ ∀ key b, (key, .object b) ∈ w.object.parts → S b

end Write

namespace Memory

variable {S T : Address → Prop} {m m' : Memory} {w : Write} {ws : List Write} {o : Object}
  {a b : Address}

/-- The memory after some writes. -/
def runWrites (ws : List Write) (m : Memory) : Memory :=
  ws.foldl (fun m w => w.run m) m

/-! ## One side -/

theorem mem_of_attribute? {name : String} {v : Held} (h : o.attribute? name = some v) :
    (.text name, v) ∈ o.parts := by
  obtain ⟨before, behind, hparts, -⟩ := List.lookup_eq_some_iff.1 h
  rw [hparts]
  exact List.mem_append_right before List.mem_cons_self

/-- What is held by objects of a side that is as it was is read as it was. -/
theorem Apart.heldBy? (hm : Apart T m) (h : ∀ a, T a → m'.get? a = m.get? a) (ha : T a)
    (ho : m.get? a = some o) (name : String) : m'.heldBy? o name = m.heldBy? o name := by
  unfold Memory.heldBy?
  cases hv : o.attribute? name with
  | none => rfl
  | some v =>
    cases v with
    | atom x => rfl
    | object b => exact h b ((hm a o ho _ b (mem_of_attribute? hv)).2 ha)

theorem Apart.raws? (hm : Apart T m) (h : ∀ a, T a → m'.get? a = m.get? a) (ha : T a)
    (ho : m.get? a = some o) : m'.raws? o = m.raws? o := by
  unfold Memory.raws? rawValue?
  rw [hm.heldBy? h ha ho]

/-- Something that is held is on the side of what holds it. -/
theorem Apart.of_heldBy? (hm : Apart T m) (ha : T a) (ho : m.get? a = some o) {name : String}
    {x : Object} (hx : m.heldBy? o name = some x) : ∃ b, T b ∧ m.get? b = some x := by
  obtain ⟨b, hb, hget⟩ := heldBy?_eq_some_iff.1 hx
  exact ⟨b, (hm a o ho _ b (mem_of_attribute? hb)).2 ha, hget⟩

/-- The children of a node on one side are on that side. -/
theorem Apart.of_childrenOf? (hm : Apart T m) (ha : T a) (ho : m.get? a = some o)
    {cs : List Address} (hcs : m.childrenOf? o = some cs) : ∀ c ∈ cs, T c := by
  unfold childrenOf? at hcs
  split at hcs
  · obtain ⟨l, hl, hcs⟩ := Option.bind_eq_some_iff.1 hcs
    obtain ⟨b, hb, hget⟩ := hm.of_heldBy? ha ho hl
    unfold Object.addresses? at hcs
    split at hcs
    · intro c hc
      obtain ⟨⟨key, v⟩, hmem, hv⟩ := exists_mem_of_forall₂ (mapM_eq_some_iff.1 hcs).flip hc
      cases v with
      | atom x => cases hv
      | object c' =>
        cases hv
        exact (hm b l hget key c hmem).2 hb
    · cases hcs
  · cases hcs
    exact List.forall_mem_nil _

/-- If one side is as it was, so are the trees there. -/
theorem Apart.treeAt_eq (hm : Apart T m) (h : ∀ a, T a → m'.get? a = m.get? a) :
    ∀ (depth : Nat) (a : Address), T a → m'.treeAt depth a = m.treeAt depth a
  | 0, _, _ => rfl
  | depth + 1, a, ha => by
    rw [treeAt, treeAt, h a ha]
    refine Option.bind_congr fun o ho => Option.bind_congr fun content _ => ?_
    rw [hm.heldBy? h ha ho]
    refine Option.bind_congr fun d hd => ?_
    obtain ⟨b, hb, hget⟩ := hm.of_heldBy? ha ho hd
    rw [hm.raws? h hb hget]
    refine Option.bind_congr fun raws _ => ?_
    have hchildren : m'.childrenOf? o = m.childrenOf? o := by
      unfold childrenOf?
      rw [hm.heldBy? h ha ho]
    rw [hchildren]
    refine Option.bind_congr fun cs hcs => ?_
    rw [mapM_congr fun c hc => hm.treeAt_eq h depth c (hm.of_childrenOf? ha ho hcs c hc)]

/-! ## Writes -/

/-- A write changes the object at its address and no other. -/
theorem get?_run (w : Write) (m : Memory) (b : Address) :
    (w.run m).get? b = if w.address = b ∧ b ≤ m.size then some w.object else m.get? b := by
  unfold Write.run
  split
  · next hlt =>
    rw [get?_update]
    by_cases hb : w.address = b
    · subst hb
      obtain ⟨o, ho⟩ := exists_get?_iff.2 hlt
      rw [if_pos rfl, if_pos ⟨rfl, Nat.le_of_lt hlt⟩, ho, Option.map_some]
    · rw [if_neg hb, if_neg fun h => hb h.1]
  · next hge =>
    split
    · next heq =>
      rw [get?_add, heq]
      by_cases hb : b = m.size
      · rw [if_pos hb, if_pos ⟨hb.symm, Nat.le_of_eq hb⟩]
      · rw [if_neg hb, if_neg fun h => hb h.1.symm]
    · next hne =>
      rw [if_neg]
      rintro ⟨rfl, hle⟩
      exact hne (Nat.le_antisymm hle (Nat.le_of_not_lt hge))

/-- A write on one side leaves the other as it is. -/
theorem get?_run_of_not (hw : w.On S) (ha : ¬S a) : (w.run m).get? a = m.get? a := by
  rw [get?_run, if_neg]
  rintro ⟨rfl, -⟩
  exact ha hw.1

/-- It keeps the sides apart. -/
theorem Apart.run (hm : Apart S m) (hw : w.On S) : Apart S (w.run m) := by
  intro a o ho key b hb
  rw [get?_run] at ho
  split at ho
  · next h =>
    cases ho
    exact iff_of_true (hw.2 key b hb) (h.1 ▸ hw.1)
  · exact hm a o ho key b hb

theorem Apart.not (hm : Apart S m) : Apart (¬S ·) m :=
  fun a o ho key b hb => not_congr (hm a o ho key b hb)

theorem Apart.of_not (hm : Apart (¬S ·) m) : Apart S m :=
  fun a o ho key b hb => not_iff_not.1 (hm a o ho key b hb)

/-- Writes on either side keep the sides apart. -/
theorem Apart.runWrites (hm : Apart S m) (hws : ∀ w ∈ ws, w.On S ∨ w.On (¬S ·)) :
    Apart S (Memory.runWrites ws m) := by
  induction ws generalizing m with
  | nil => exact hm
  | cons w ws ih =>
    obtain ⟨hw, hws⟩ := List.forall_mem_cons.1 hws
    refine ih ?_ hws
    rcases hw with hw | hw
    · exact hm.run hw
    · exact (hm.not.run hw).of_not

/-- Writes to one side leave the other one as it is. -/
theorem get?_runWrites_of_not (hws : ∀ w ∈ ws, w.On S) (ha : ¬S a) :
    (runWrites ws m).get? a = m.get? a := by
  induction ws generalizing m with
  | nil => rfl
  | cons w ws ih =>
    obtain ⟨hw, hws⟩ := List.forall_mem_cons.1 hws
    exact (ih hws).trans (get?_run_of_not hw ha)

/-- Writes on one side are not seen in the trees of the other. -/
theorem Apart.treeAt_runWrites (hm : Apart S m) (hws : ∀ w ∈ ws, w.On S) (depth : Nat)
    (ha : ¬S a) : (Memory.runWrites ws m).treeAt depth a = m.treeAt depth a :=
  hm.not.treeAt_eq (fun _ hb => get?_runWrites_of_not hws hb) depth a ha

/-- The objects before an address and those from it on are detached: however new objects are counted
to one of the two sides, and whatever has been written on either of them, no writes on one side can
be seen in the trees of the other. -/
def Detached (lo : Address) (m : Memory) : Prop :=
  ∀ S : Address → Prop, (∀ a < m.size, S a ↔ a < lo) →
    ∀ before, (∀ w ∈ before, Write.On S w ∨ Write.On (¬S ·) w) → ∀ ws,
      ((∀ w ∈ ws, Write.On S w) → ∀ depth a, ¬S a →
        (runWrites ws (runWrites before m)).treeAt depth a =
          (runWrites before m).treeAt depth a) ∧
      ((∀ w ∈ ws, Write.On (¬S ·) w) → ∀ depth a, S a →
        (runWrites ws (runWrites before m)).treeAt depth a =
          (runWrites before m).treeAt depth a)

/-- Objects that are apart from those before an address cannot be seen from these, nor the other way
around. -/
theorem Apart.detached {lo : Address} (hm : Apart (· < lo) m) (hclosed : m.Closed) :
    Detached lo m := by
  intro S hS before hbefore ws
  have hside : Apart S m := fun a o ho key b hb => by
    rw [hS a (exists_get?_iff.1 ⟨o, ho⟩), hS b (hclosed a o ho key b hb)]
    exact hm a o ho key b hb
  have hnow := hside.runWrites hbefore
  refine ⟨fun hws depth a ha => hnow.treeAt_runWrites hws depth ha, fun hws depth a ha => ?_⟩
  exact hnow.not.treeAt_runWrites hws depth (not_not.2 ha)

end Memory

end PixelUnit
