import PixelUnit.Proofs.Forest.Shifts

/-!
# What happens while iterations run

Iterations start, go on to the next child and end; in between nodes are created and moved. A
`History` lists what happened from one forest to another. Whatever it is, an iteration that runs
meanwhile has passed what it had passed and what it visited, and has ahead what was ahead without
that, but for the nodes that were moved (`History.stands`).
-/

namespace PixelUnit

open Sheet

/-! ## One cursor among others -/

namespace Slot

variable {s : Slot} {key key' : Nat} {passed ahead : List NodeId}

/-- Starting another iteration leaves a cursor where it is. -/
theorem cursor?_startCursor {n : Int} (h : s.cursor? key = some n) :
    s.startCursor.cursor? key = some n := by
  obtain ⟨c, hc, hn⟩ := Option.map_eq_some_iff.1 h
  unfold cursor? startCursor
  rw [List.find?_append, hc, Option.some_or, Option.map_some, hn]

theorem key_advance (key : Nat) (c : Cursor) :
    (if c.key == key then { c with position := c.position + 1 } else c).key = c.key := by
  split <;> rfl

/-- Moving a cursor on does not change the keys. -/
theorem keys_advanceCursor (s : Slot) (key : Nat) :
    (s.advanceCursor key).cursors.map Cursor.key = s.cursors.map Cursor.key := by
  unfold advanceCursor
  rw [List.map_map]
  exact List.map_congr_left fun c _ => key_advance key c

/-- Moving a cursor on leaves all other cursors where they are. -/
theorem cursor?_advanceCursor_of_ne (hne : key' ≠ key) :
    (s.advanceCursor key).cursor? key' = s.cursor? key' := by
  unfold cursor? advanceCursor
  rw [List.find?_map]
  simp only [Function.comp_def, key_advance]
  rw [Option.map_map]
  refine Option.map_congr fun c hc => ?_
  have hfound : c.key = key' := by simpa using List.find?_some hc
  have hother : ¬(c.key == key) = true := by rw [hfound]; simpa using hne
  show (if c.key == key then _ else c).position = c.position
  rw [if_neg hother]

/-- The end of an iteration leaves all other cursors where they are. -/
theorem cursor?_endCursor_of_ne (s : Slot) (hne : key' ≠ key) :
    (s.endCursor key).cursor? key' = s.cursor? key' := by
  unfold cursor? endCursor
  rw [List.find?_filter]
  congr 2
  funext c
  by_cases hc : c.key = key'
  · simp [hc, hne]
  · simp [hc]

/-- A cursor that is moved on and then taken away might as well have been taken away. -/
theorem endCursor_advanceCursor (s : Slot) (key : Nat) :
    (s.advanceCursor key).endCursor key = s.endCursor key := by
  unfold advanceCursor endCursor
  have hfilter : (s.cursors.map fun c => if c.key == key then
      { c with position := c.position + 1 } else c).filter (·.key != key) =
      s.cursors.filter (·.key != key) := by
    induction s.cursors with
    | nil => rfl
    | cons c cs ih =>
      rw [List.map_cons, List.filter_cons, List.filter_cons, ih]
      by_cases hc : c.key = key
      · simp [hc]
      · simp [hc]
  simp only [hfilter]

end Slot

namespace Iteration

variable {it : Iteration} {f : Forest} {passed ahead passed' ahead' : List NodeId}

/-- The children on either side are determined. -/
theorem Stands.unique (h : it.Stands f passed ahead) (h' : it.Stands f passed' ahead') :
    passed' = passed ∧ ahead' = ahead := by
  have hposition := h.position_eq.symm.trans h'.position_eq
  have hlength : passed.length = passed'.length := by
    have := Option.some.inj hposition
    omega
  have happend := h.childrenOf_eq.symm.trans h'.childrenOf_eq
  obtain ⟨rfl, rfl⟩ := List.append_inj happend hlength
  exact ⟨rfl, rfl⟩

/-- A change of the cursors of one node that leaves one of them alone. -/
theorem Stands.update (h : it.Stands f passed ahead) {c : NodeId} {a : Slot → Slot}
    (hchildren : ∀ s, (a s).children = s.children)
    (hcursor : c = it.container → ∀ s : Slot, ∀ n, s.cursor? it.key = some n →
      (a s).cursor? it.key = some n) : it.Stands (f.update c a) passed ahead := by
  by_cases hc : c = it.container
  · obtain ⟨s, hs, hstands⟩ := h.exists_slot
    refine (stands_iff (s := a s) ?_).2 ⟨(hchildren s).trans hstands.children_eq,
      hcursor hc s _ hstands.cursor_eq⟩
    rw [hc, Forest.get?_update_self, hs]
    rfl
  · exact h.congr (Forest.get?_update_of_ne a hc)

/-- The child that an iteration has come to is the last one that it has passed. -/
theorem stands_concat_iff {i : NodeId} : it.Stands f (passed ++ [i]) ahead ↔
    Forest.StandsAt f it.container it.key passed (i :: ahead) := by
  have hlength : ((passed ++ [i]).length : Int) - 1 = passed.length := by
    rw [List.length_append]
    simp
  have happend : passed ++ [i] ++ ahead = passed ++ i :: ahead := by
    rw [List.append_assoc]
    rfl
  exact ⟨fun h => ⟨happend ▸ h.childrenOf_eq, hlength ▸ h.position_eq⟩,
    fun h => ⟨happend ▸ h.childrenOf_eq, hlength ▸ h.cursor_eq⟩⟩

/-- An iteration goes on. -/
theorem Stands.standsAt_advance (h : it.Stands f passed ahead) :
    Forest.StandsAt (f.update it.container (·.advanceCursor it.key)) it.container it.key passed
      ahead := by
  obtain ⟨s, hs, hstands⟩ := h.exists_slot
  have hadvanced : (f.update it.container (·.advanceCursor it.key)).get? it.container =
      some (s.advanceCursor it.key) := by
    rw [Forest.get?_update_self, hs]
    rfl
  refine ⟨(Forest.childrenOf_of_get? hadvanced).trans hstands.children_eq, ?_⟩
  rw [hadvanced]
  show (s.advanceCursor it.key).cursor? it.key = _
  rw [Slot.cursor?_advanceCursor, hstands.cursor_eq]
  simp

/-- The next child is passed. -/
theorem Stands.advance {i : NodeId} (h : it.Stands f passed (i :: ahead)) :
    it.Stands (f.update it.container (·.advanceCursor it.key)) (passed ++ [i]) ahead :=
  stands_concat_iff.2 h.standsAt_advance

/-- An iteration that runs has a key that was given out. -/
theorem Stands.key_lt (h : it.Stands f passed ahead) (hf : f.KeysGiven) :
    it.key < f.nextKey it.container := by
  obtain ⟨s, hs, hstands⟩ := h.exists_slot
  obtain ⟨c, hc, -⟩ := Option.map_eq_some_iff.1 hstands.cursor_eq
  have hkey : c.key = it.key := by simpa using List.find?_some hc
  have hle := hf _ s hs c (List.mem_of_find?_eq_some hc)
  unfold Forest.nextKey
  rw [hs, ← hkey]
  exact Nat.lt_succ_of_le hle

end Iteration

/-! ## Events -/

namespace Forest

/-- What happens while iterations run. -/
inductive Event where
  /-- Nodes are moved. -/
  | moved (m : Move) (taken : List NodeId)
  /-- A node is created. -/
  | created (content : Content) (raws : Raws)
  /-- An iteration starts, and visits the first child if there is one. -/
  | started (it : Iteration) (first : Option NodeId)
  /-- An iteration goes on to the next child. -/
  | visited (it : Iteration) (child : NodeId)
  /-- An iteration ends. -/
  | ended (it : Iteration)

namespace Event

/-- The nodes that are inserted. -/
def inserted : Event → List NodeId
  | moved m _ => m.inserted
  | _ => []

/-- The nodes that are moved. -/
def taken : Event → List NodeId
  | moved _ taken => taken
  | _ => []

/-- The child that an iteration visits. -/
def visits (it : Iteration) : Event → List NodeId
  | started it' first => if it' = it then first.toList else []
  | visited it' child => if it' = it then [child] else []
  | _ => []

/-- At a visit nothing is moved, and only one node is visited. -/
theorem of_mem_visits {e : Event} {it : Iteration} {i : NodeId} (h : i ∈ e.visits it) :
    e.visits it = [i] ∧ e.inserted = [] ∧ e.taken = [] := by
  cases e with
  | started it' first =>
    refine ⟨?_, rfl, rfl⟩
    by_cases hit : it' = it
    · have hvisits : (started it' first).visits it = first.toList := if_pos hit
      rw [hvisits, Option.mem_toList] at h
      rw [hvisits, h]
      rfl
    · have hvisits : (started it' first).visits it = [] := if_neg hit
      rw [hvisits] at h
      cases h
  | visited it' child =>
    refine ⟨?_, rfl, rfl⟩
    by_cases hit : it' = it
    · have hvisits : (visited it' child).visits it = [child] := if_pos hit
      rw [hvisits, List.mem_singleton] at h
      rw [hvisits, h]
    · have hvisits : (visited it' child).visits it = [] := if_neg hit
      rw [hvisits] at h
      cases h
  | moved | created | ended => cases h

end Event

/-- All nodes that are inserted in the course of some events. -/
def insertedIn (es : List Event) : List NodeId :=
  es.flatMap Event.inserted

/-- All nodes that are moved in the course of some events. -/
def takenIn (es : List Event) : List NodeId :=
  es.flatMap Event.taken

/-- The children that an iteration visits in the course of some events, one after the other. -/
def visitsIn (it : Iteration) (es : List Event) : List NodeId :=
  es.flatMap (Event.visits it)

variable {f g h : Forest} {e : Event} {es es' : List Event} {it : Iteration}
  {passed ahead : List NodeId}

/-- Something happens to a forest. A move may succeed or fail. -/
inductive Step : Forest → Event → Forest → Prop
  | moved {f : Forest} {m : Move} (hm : m.Forward) :
      Step f (.moved m (m.taken f)) (m.perform.left f)
  | created {f : Forest} (content : Content) (raws : Raws) :
      Step f (.created content raws) (f.add { content, raws }).2
  | started (f : Forest) (c : NodeId) :
      Step f (.started ⟨c, f.nextKey c⟩ (f.childrenOf c).head?) (f.update c Slot.startCursor)
  | visited {f : Forest} {it : Iteration} {i : NodeId} {passed ahead : List NodeId}
      (hs : it.Stands f passed (i :: ahead)) :
      Step f (.visited it i) (f.update it.container (·.advanceCursor it.key))
  | ended (f : Forest) (it : Iteration) :
      Step f (.ended it) (f.update it.container (·.endCursor it.key))

namespace Step

/-- What happens determines the forest. -/
theorem unique (hg : Step f e g) (hh : Step f e h) : g = h := by
  cases hg <;> cases hh <;> rfl

/-- Whatever happens to a forest, its cursors have keys that were given out. -/
theorem keysGiven (hstep : Step f e g) (hf : f.KeysGiven) : g.KeysGiven := by
  cases hstep with
  | moved hm => exact (Move.carries hm f).keysGiven hf
  | created => exact (@Carries.add [] [] f _ rfl rfl).keysGiven hf
  | started c => exact hf.startCursorAt c 0
  | visited => exact hf.advanceCursor _ _
  | ended => exact hf.endCursor _ _

/-- An iteration that visits nothing has passed what it had passed, and has ahead what is left of
what was ahead. -/
theorem stands_of_visits_eq_nil {passed' ahead' : List NodeId} (hvisits : e.visits it = [])
    (hs : it.Stands g passed' ahead') (hpassed : AgreeBut e.inserted e.taken passed passed')
    (hahead : AgreeBut e.inserted e.taken ahead ahead') :
    ∃ passed' ahead', it.Stands g passed' ahead' ∧
      AgreeBut e.inserted e.taken (passed ++ e.visits it) passed' ∧
      AgreeBut e.inserted e.taken ahead (e.visits it ++ ahead') := by
  rw [hvisits, List.append_nil]
  exact ⟨passed', ahead', hs, hpassed, hahead⟩

/-- Whatever happens, an iteration that does not end has passed what it had passed and what it
visits, and has ahead what is left of what was ahead. -/
theorem stands (hstep : Step f e g) (hf : f.KeysGiven) (hend : e ≠ .ended it)
    (hs : it.Stands f passed ahead) :
    ∃ passed' ahead', it.Stands g passed' ahead' ∧
      AgreeBut e.inserted e.taken (passed ++ e.visits it) passed' ∧
      AgreeBut e.inserted e.taken ahead (e.visits it ++ ahead') := by
  cases hstep with
  | moved hm =>
    obtain ⟨passed', ahead', hs', hpassed, hahead⟩ := (Move.carries hm f).stands hs
    exact stands_of_visits_eq_nil rfl hs' hpassed hahead
  | created content raws =>
    obtain ⟨passed', ahead', hs', hpassed, hahead⟩ :=
      (@Carries.add [] [] f { content, raws } rfl rfl).stands hs
    exact stands_of_visits_eq_nil rfl hs' hpassed hahead
  | started c =>
    -- the new key is none of those that were given out
    have hne : (⟨c, f.nextKey c⟩ : Iteration) ≠ it := by
      rintro rfl
      exact absurd (hs.key_lt hf) (Nat.lt_irrefl _)
    have hs' := hs.update (c := c) (a := Slot.startCursor) (fun _ => rfl)
      fun _ s n => s.cursor?_startCursor
    exact stands_of_visits_eq_nil (if_neg hne) hs' (.refl _ _ _) (.refl _ _ _)
  | @visited it' i passed' ahead' hs' =>
    by_cases hit : it' = it
    · subst hit
      obtain ⟨rfl, rfl⟩ := hs'.unique hs
      have hvisits : (Event.visited it' i).visits it' = [i] := if_pos rfl
      rw [hvisits]
      exact ⟨passed ++ [i], ahead', hs'.advance, .refl _ _ _, .refl _ _ _⟩
    · refine stands_of_visits_eq_nil (if_neg hit) (hs.update (fun _ => rfl) fun hc s n hn => ?_)
        (.refl _ _ _) (.refl _ _ _)
      rwa [Slot.cursor?_advanceCursor_of_ne]
      exact fun hkey => hit (Iteration.ext hc hkey.symm)
  | ended it' =>
    refine stands_of_visits_eq_nil rfl (hs.update (fun _ => rfl) fun hc s n hn => ?_)
      (.refl _ _ _) (.refl _ _ _)
    rwa [Slot.cursor?_endCursor_of_ne]
    exact fun hkey => hend (congrArg Event.ended (Iteration.ext hc hkey.symm))

end Step

/-! ## Histories -/

/-- Events that lead from one forest to another. -/
inductive History : Forest → List Event → Forest → Prop
  | nil (f : Forest) : History f [] f
  | cons {f g h : Forest} {e : Event} {es : List Event} (first : Step f e g)
      (rest : History g es h) : History f (e :: es) h

namespace History

theorem single (hstep : Step f e g) : History f [e] g :=
  .cons hstep (.nil g)

/-- What leads from one forest to another and on to a third leads there. -/
theorem append (hfg : History f es g) (hgh : History g es' h) : History f (es ++ es') h := by
  induction hfg with
  | nil => exact hgh
  | cons first _ ih => exact .cons first (ih hgh)

/-- The events determine the forest that they lead to. -/
theorem unique (hg : History f es g) (hh : History f es h) : g = h := by
  induction hg with
  | nil => cases hh; rfl
  | cons first _ ih =>
    obtain _ | ⟨first', rest'⟩ := hh
    exact ih (first.unique first' ▸ rest')

/-- Between any two events there is a forest. -/
theorem split (hfh : History f (es ++ es') h) : ∃ g, History f es g ∧ History g es' h := by
  induction es generalizing f with
  | nil => exact ⟨f, .nil f, hfh⟩
  | cons e es ih =>
    obtain _ | ⟨first, rest⟩ := hfh
    obtain ⟨g, hg, hgh⟩ := ih rest
    exact ⟨g, .cons first hg, hgh⟩

/-- At the end of a history, all cursors have keys that were given out. -/
theorem keysGiven (hfg : History f es g) (hf : f.KeysGiven) : g.KeysGiven := by
  induction hfg with
  | nil => exact hf
  | cons first _ ih => exact ih (first.keysGiven hf)

/-- In the course of any events, an iteration that does not end has passed what it had passed and
what it visited, and has ahead what is left of what was ahead. -/
theorem stands (hfg : History f es g) (hf : f.KeysGiven) (hend : .ended it ∉ es)
    (hs : it.Stands f passed ahead) :
    ∃ passed' ahead', it.Stands g passed' ahead' ∧
      AgreeBut (insertedIn es) (takenIn es) (passed ++ visitsIn it es) passed' ∧
      AgreeBut (insertedIn es) (takenIn es) ahead (visitsIn it es ++ ahead') := by
  induction hfg generalizing passed ahead with
  | nil =>
    refine ⟨passed, ahead, hs, ?_, .refl _ _ _⟩
    rw [visitsIn, List.flatMap_nil, List.append_nil]
    exact .refl _ _ _
  | @cons f g h e es first rest ih =>
    rw [List.mem_cons, not_or] at hend
    obtain ⟨passed₁, ahead₁, hs₁, hpassed₁, hahead₁⟩ := first.stands hf (Ne.symm hend.1) hs
    obtain ⟨passed₂, ahead₂, hs₂, hpassed₂, hahead₂⟩ := ih (first.keysGiven hf) hend.2 hs₁
    have hnow : ∀ {xs ys : List NodeId}, AgreeBut e.inserted e.taken xs ys →
        AgreeBut (insertedIn (e :: es)) (takenIn (e :: es)) xs ys := fun hxy =>
      hxy.mono (List.subset_append_left _ _) (List.subset_append_left _ _)
    have hlater : ∀ {xs ys : List NodeId}, AgreeBut (insertedIn es) (takenIn es) xs ys →
        AgreeBut (insertedIn (e :: es)) (takenIn (e :: es)) xs ys := fun hxy =>
      hxy.mono (List.subset_append_right _ _) (List.subset_append_right _ _)
    have hvisits : visitsIn it (e :: es) = e.visits it ++ visitsIn it es := rfl
    refine ⟨passed₂, ahead₂, hs₂, ?_, ?_⟩
    · rw [hvisits, ← List.append_assoc]
      exact ((hnow hpassed₁).append (.refl _ _ _)).trans (hlater hpassed₂)
    · rw [hvisits, List.append_assoc]
      exact (hnow hahead₁).trans ((AgreeBut.refl _ _ _).append (hlater hahead₂))

end History

end Forest

end PixelUnit
