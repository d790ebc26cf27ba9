import PixelUnit.Proofs.Forest.Walk

/-!
# Walks over a growing forest

A visit may put a new node behind the node it is made at. The iteration then goes on with the new
node: its cursor stands at the node visited, and the new one comes in behind it. If new nodes are
passed over when their turn comes, the walk visits the nodes that were there, in their order, and
comes to its end (`Consistent.walk_grows`).

What visits do to the forest is up to an invariant `P` of the nodes visited so far, which must not
look at cursors; `GrowsBelow` lists what the walk needs to know of it.
-/

namespace PixelUnit

open Sheet

/-- Moving a cursor on moves its position. -/
theorem Slot.cursor?_advanceCursor (s : Slot) (key : Nat) :
    (s.advanceCursor key).cursor? key = (s.cursor? key).map (· + 1) := by
  have hkey : ∀ k : Cursor,
      (if k.key == key then { k with position := k.position + 1 } else k).key =
      k.key := by
    intro k
    split <;> rfl
  unfold cursor? advanceCursor
  rw [List.find?_map]
  simp only [Function.comp_def, hkey]
  rw [Option.map_map, Option.map_map]
  refine Option.map_congr fun k hk => ?_
  have hfound : k.key = key := by simpa using List.find?_some hk
  simp [hfound]

namespace Forest

variable {σ : Type} {f g h : Forest} {c i : NodeId} {key : Nat} {front todo : List NodeId}

/-! ## Keys -/

/-- A change of one node that gives its cursors no keys but given ones. -/
theorem KeysGiven.update (hf : f.KeysGiven) {a : Slot → Slot}
    (ha : ∀ s : Slot, (∀ k ∈ s.cursors, k.key ≤ s.lastKey) →
      ∀ k ∈ (a s).cursors, k.key ≤ (a s).lastKey) : (f.update c a).KeysGiven := by
  intro i t ht
  rw [get?_update] at ht
  split at ht
  · obtain ⟨s, hs, rfl⟩ := Option.map_eq_some_iff.1 ht
    exact ha s (hf i s hs)
  · exact hf i t ht

/-- Moving cursors gives no keys. -/
theorem keysGiven_shiftCursors (s : Slot) (hs : ∀ k ∈ s.cursors, k.key ≤ s.lastKey)
    (q : Int → Bool) (amount : Int) :
    ∀ k ∈ (s.shiftCursors q amount).cursors, k.key ≤ (s.shiftCursors q amount).lastKey := by
  intro k hk
  obtain ⟨k', hk', rfl⟩ := List.mem_map.1 hk
  unfold Cursor.shift
  split
  · exact hs k' hk'
  · exact hs k' hk'

/-- Moving a cursor gives out no keys. -/
theorem KeysGiven.advanceCursor (hf : f.KeysGiven) (c : NodeId) (key : Nat) :
    (f.update c (·.advanceCursor key)).KeysGiven := by
  refine hf.update fun s hs k hk => ?_
  obtain ⟨k', hk', rfl⟩ := List.mem_map.1 hk
  split
  · exact hs k' hk'
  · exact hs k' hk'

theorem KeysGiven.endCursor (hf : f.KeysGiven) (c : NodeId) (key : Nat) :
    (f.update c (·.endCursor key)).KeysGiven :=
  hf.update fun _ hs k hk => hs k (List.mem_filter.1 hk).1

/-! ## The place of an iteration -/

/-- An iteration over a container has `front` behind it and goes on with `todo`. -/
structure StandsAt (g : Forest) (c : NodeId) (key : Nat) (front todo : List NodeId) : Prop where
  childrenOf_eq : g.childrenOf c = front ++ todo
  cursor_eq : (g.get? c).bind (·.cursor? key) = some (front.length : Int)

namespace StandsAt

/-- Only the container matters. -/
theorem congr (hg : StandsAt g c key front todo) (h' : h.get? c = g.get? c) :
    StandsAt h c key front todo := by
  refine ⟨?_, h' ▸ hg.cursor_eq⟩
  rw [childrenOf_congr h', hg.childrenOf_eq]

theorem position_eq (hg : StandsAt g c key front todo) :
    ((g.get? c).bind (·.cursor? key)).getD 0 = (front.length : Int) := by
  rw [hg.cursor_eq]
  rfl

theorem getElem?_eq (hg : StandsAt g c key front (i :: todo)) :
    (g.childrenOf c)[front.length]? = some i := by
  rw [hg.childrenOf_eq, List.getElem?_append_right (Nat.le_refl _), Nat.sub_self]
  rfl

/-- One child further. -/
theorem advance (hg : StandsAt g c key front (i :: todo)) :
    StandsAt (g.update c (·.advanceCursor key)) c key (front ++ [i]) todo := by
  refine ⟨?_, ?_⟩
  · have hsame : (g.update c (·.advanceCursor key)).childrenOf c = g.childrenOf c := by
      rw [← childrenOf_plain, plain_advanceCursor, childrenOf_plain]
    rw [hsame, hg.childrenOf_eq, List.append_assoc]
    rfl
  · obtain ⟨s, hs, hcursor⟩ := Option.bind_eq_some_iff.1 hg.cursor_eq
    rw [get?_update_self, hs, List.length_append]
    show (s.advanceCursor key).cursor? key = _
    rw [s.cursor?_advanceCursor key, hcursor]
    rfl

end StandsAt

/-- An iteration that starts has nothing behind it and all children ahead. -/
theorem standsAt_startCursor (hg : g.KeysGiven) (hc : c < g.size) :
    StandsAt (g.update c Slot.startCursor) c (g.nextKey c) [] (g.childrenOf c) := by
  refine ⟨(sameShape_startCursorAt g c 0).childrenOf c, ?_⟩
  obtain ⟨s, hs⟩ := get?_eq_some_of_lt hc
  rw [get?_update_self, nextKey, hs]
  exact Slot.cursor?_eq_of_keeps (n := 0) (hg c s hs) ⟨rfl, rfl, Nat.le_refl _⟩

/-! ## One container -/

/-- Of the nodes of `f`, only such as satisfy `S` differ in `g` and `h`. -/
def SameBut (f : Forest) (S : NodeId → Prop) (g h : Forest) : Prop :=
  ∀ j : Nat, j < f.size → ¬S j → h.get? j = g.get? j

theorem SameBut.trans {S : NodeId → Prop} {e : Forest} (hgh : SameBut f S g h)
    (hhe : SameBut f S h e) : SameBut f S g e := fun j hj hS =>
  (hhe j hj hS).trans (hgh j hj hS)

theorem sameBut_update {S : NodeId → Prop} (hS : S c) (a : Slot → Slot) :
    SameBut f S g (g.update c a) := fun _ _ hj =>
  get?_update_of_ne a fun hcj => hj (hcj ▸ hS)

/-- A visit of a child `i` makes the iteration go on, perhaps with a new node behind `i`. -/
def PutsBehind (f : Forest) (S : NodeId → Prop) (x : Walk σ Verdict) (s : σ) (g : Forest)
    (c : NodeId) (key : Nat) (front : List NodeId) (i : NodeId) (todo : List NodeId)
    (R : σ → Forest → Prop) : Prop :=
  ∃ new s' h, x s g = .ok (.proceed, s') h ∧ h.KeysGiven ∧ SameBut f S g h ∧ new.length ≤ 1 ∧
    (∀ j ∈ new, f.size ≤ j) ∧ StandsAt h c key front (i :: (new ++ todo)) ∧ R s' h.plain

section Each

variable {visit : Visit σ} {P : List NodeId → σ → Forest → Prop} {S : NodeId → Prop}

/-- Every visit of a child that was there hands `P` on to the next one. -/
def HandsOnGrowing (f : Forest) (visit : Visit σ) (S : NodeId → Prop) (c : NodeId) (key : Nat)
    (P : List NodeId → σ → Forest → Prop) : Prop :=
  ∀ before i rest, f.childrenOf c = before ++ i :: rest → ∀ s g front, g.KeysGiven →
    StandsAt g c key front (i :: rest) → P before s g.plain →
      PutsBehind f S (visit i front.length) s g c key front i rest (P (before ++ [i]))

/-- New nodes are passed over. -/
def PassesNew (f : Forest) (visit : Visit σ) (P : List NodeId → σ → Forest → Prop) : Prop :=
  ∀ done j n s g, f.size ≤ j → P done s g.plain →
    ∃ s', visit j n s g = .ok (.proceed, s') g ∧ P done s' g.plain

/-- The children to come are the new node behind the one just visited, if there is one, and those
that were there and have not been visited. -/
theorem eachFrom_grows (hS : S c) (hold : HandsOnGrowing f visit S c key P)
    (hnew : PassesNew f visit P) :
    ∀ (bound : Nat) (new rest before front : List NodeId) (s : σ) (g : Forest),
      f.childrenOf c = before ++ rest → new.length + 2 * rest.length < bound →
      (∀ j ∈ new, f.size ≤ j) → g.KeysGiven → StandsAt g c key front (new ++ rest) →
      P before s g.plain →
      ∃ s' h, eachFrom visit c key bound s g = .ok (true, s') h ∧ h.KeysGiven ∧
        SameBut f S g h ∧ P (f.childrenOf c) s' h.plain
  | 0, _, _, _, _, _, _, _, hbound, _, _, _, _ => absurd hbound (Nat.not_lt_zero _)
  | bound + 1, [], [], before, front, s, g, hchildren, _, _, hkeys, hat, hP => by
    have hlength : (g.childrenOf c).length ≤ front.length := by
      rw [hat.childrenOf_eq, List.append_nil, List.append_nil]
    refine ⟨s, g, eachFrom_nil hat.position_eq hlength, hkeys, fun _ _ _ => rfl, ?_⟩
    rw [hchildren, List.append_nil]
    exact hP
  | bound + 1, j :: new, rest, before, front, s, g, hchildren, hbound, hsize, hkeys, hat, hP => by
    obtain ⟨s₁, hrun, hP₁⟩ := hnew before j front.length s g (hsize j List.mem_cons_self) hP
    rw [eachFrom_cons hat.position_eq hat.getElem?_eq hrun]
    obtain ⟨s₂, h, hrun', hkeys', hsame, hP'⟩ := eachFrom_grows hS hold hnew bound new rest before
      (front ++ [j]) s₁ (g.update c (·.advanceCursor key)) hchildren
      (by rw [List.length_cons] at hbound; omega)
      (fun k hk => hsize k (List.mem_cons_of_mem _ hk)) (hkeys.advanceCursor c key) hat.advance
      (by rw [plain_advanceCursor]; exact hP₁)
    exact ⟨s₂, h, hrun', hkeys', (sameBut_update hS _).trans hsame, hP'⟩
  | bound + 1, [], i :: rest, before, front, s, g, hchildren, hbound, _, hkeys, hat, hP => by
    obtain ⟨new, s₁, g₁, hrun, hkeys₁, hsame₁, hone, hsize₁, hat₁, hP₁⟩ :=
      hold before i rest hchildren s g front hkeys hat hP
    rw [eachFrom_cons hat.position_eq hat.getElem?_eq hrun]
    obtain ⟨s₂, h, hrun', hkeys', hsame, hP'⟩ := eachFrom_grows hS hold hnew bound new rest
      (before ++ [i]) (front ++ [i]) s₁ (g₁.update c (·.advanceCursor key))
      (by rw [hchildren, List.append_assoc]; rfl)
      (by rw [List.length_cons] at hbound; omega)
      hsize₁ (hkeys₁.advanceCursor c key) hat₁.advance
      (by rw [plain_advanceCursor]; exact hP₁)
    exact ⟨s₂, h, hrun', hkeys', hsame₁.trans ((sameBut_update hS _).trans hsame), hP'⟩

/-- An iteration over a container that has not grown yet. -/
theorem each_grows {bound : Nat} {s : σ} (hg : g.KeysGiven) (hc : c < g.size) (hS : S c)
    (hchildren : g.childrenOf c = f.childrenOf c) (hbound : 2 * (f.childrenOf c).length < bound)
    (hold : HandsOnGrowing f visit S c (g.nextKey c) P) (hnew : PassesNew f visit P)
    (hP : P [] s g.plain) :
    ∃ s' h, each bound visit c s g = .ok (true, s') h ∧ h.KeysGiven ∧ SameBut f S g h ∧
      P (f.childrenOf c) s' h.plain := by
  have hat := standsAt_startCursor hg hc
  rw [hchildren] at hat
  obtain ⟨s', h, hrun, hkeys, hsame, hP'⟩ := eachFrom_grows hS hold hnew bound [] (f.childrenOf c)
    [] [] s (g.update c Slot.startCursor) rfl (by rw [List.length_nil]; omega) (by simp)
    (hg.startCursorAt c 0) hat (by rw [plain_startCursor]; exact hP)
  refine ⟨s', h.update c (·.endCursor (g.nextKey c)), each_of_ok hrun, hkeys.endCursor c _, ?_, ?_⟩
  · exact (sameBut_update hS _).trans (hsame.trans (sameBut_update hS _))
  · rw [plain_endCursor]
    exact hP'

end Each

/-! ## All levels -/

section Walk

variable {visit : Visit σ} {P : List NodeId → σ → Forest → Prop}

/-- A visit of a node, and of all nodes below it down to a given depth. -/
def visitAll (bound : Nat) (visit : Visit σ) (depth : Nat) : Visit σ := fun i position => do
  match ← visit i position with
  | .stop => return .stop
  | .proceed =>
    if (← getThe Forest).isContainer i then
      return if ← walk bound visit depth i then .proceed else .stop
    else return .proceed

theorem walk_succ (bound : Nat) (visit : Visit σ) (depth : Nat) (c : NodeId) :
    walk bound visit (depth + 1) c = each bound (visitAll bound visit depth) c :=
  rfl

section VisitAll

variable {bound depth : Nat} {n : Int} {s s' s'' : σ} {e : Forest}

/-- A visit of a node without children is the callback's alone. -/
theorem visitAll_of_leaf (hrun : visit i n s g = .ok (.proceed, s') h)
    (hi : h.isContainer i = false) :
    visitAll bound visit depth i n s g = .ok (.proceed, s') h := by
  unfold visitAll
  rw [Walk.bind_ok hrun]
  dsimp only
  rw [Walk.getThe_bind_apply, hi]
  rfl

/-- A visit of a container is the callback's, and then a walk of the nodes below. -/
theorem visitAll_of_container (hrun : visit i n s g = .ok (.proceed, s') h)
    (hi : h.isContainer i = true) (hwalk : walk bound visit depth i s' h = .ok (true, s'') e) :
    visitAll bound visit depth i n s g = .ok (.proceed, s'') e := by
  unfold visitAll
  rw [Walk.bind_ok hrun]
  dsimp only
  rw [Walk.getThe_bind_apply, hi, if_pos rfl, Walk.bind_ok hwalk]
  rfl

end VisitAll

/-- Visits of a walk that put new nodes only behind the ones they are made at, and what `P` tells
of a forest that has grown. -/
structure GrowsBelow (f : Forest) (visit : Visit σ) (P : List NodeId → σ → Forest → Prop) :
    Prop where
  putsBehind : ∀ done i c, f.HangsFrom i c → i ∉ done → ∀ s g key front todo, g.KeysGiven →
    StandsAt g c key front (i :: todo) → P done s g.plain →
      PutsBehind f (· = c) (visit i front.length) s g c key front i todo (P (done ++ [i]))
  passesNew : PassesNew f visit P
  size_le : ∀ done s g, P done s g → f.size ≤ g.size
  isContainer_old : ∀ done s g i, P done s g → i < f.size → g.isContainer i = f.isContainer i
  isContainer_new : ∀ done s g j, P done s g → f.size ≤ j → g.isContainer j = false
  childrenOf_eq : ∀ done s g c, P done s g → c < f.size → (∀ i ∈ f.childrenOf c, i ∉ done) →
    g.childrenOf c = f.childrenOf c

namespace GrowsBelow

variable {done : List NodeId} {s : σ}

/-- Visits of a walk do not change which of the old nodes are containers. -/
theorem isContainer_eq (hvisit : GrowsBelow f visit P) (hP : P done s g.plain) (hi : i < f.size) :
    g.isContainer i = f.isContainer i := by
  rw [← hvisit.isContainer_old done s g.plain i hP hi]
  unfold isContainer
  rw [contentOf_plain]

/-- The nodes that visits of a walk put in are no containers. -/
theorem isContainer_eq_false (hvisit : GrowsBelow f visit P) (hP : P done s g.plain)
    (hi : f.size ≤ i) : g.isContainer i = false := by
  rw [← hvisit.isContainer_new done s g.plain i hP hi]
  unfold isContainer
  rw [contentOf_plain]

end GrowsBelow

/-- A walk of the nodes below `c`, down to a depth, makes the visits of those that were there and
comes to its end. -/
def WalksOver (f : Forest) (bound : Nat) (visit : Visit σ) (P : List NodeId → σ → Forest → Prop)
    (depth : Nat) (c : NodeId) : Prop :=
  ∀ (done : List NodeId) (s : σ) (g : Forest), (done ++ f.nodesTo depth c).Nodup → g.KeysGiven →
    P done s g.plain →
    ∃ s' h, walk bound visit depth c s g = .ok (true, s') h ∧ h.KeysGiven ∧
      SameBut f (fun j => j = c ∨ f.IsBelow j c) g h ∧ P (done ++ f.nodesTo depth c) s' h.plain

/-- The visit of a child, and then of the nodes below it. -/
theorem Consistent.visitAll_putsBehind (hf : f.Consistent) {bound depth : Nat}
    (hvisit : GrowsBelow f visit P) (hic : f.HangsFrom i c)
    (hwalk : WalksOver f bound visit P depth i)
    {done : List NodeId} {s : σ} (hnodup : (done ++ [i] ++ f.nodesTo depth i).Nodup)
    (hkeys : g.KeysGiven) (hat : StandsAt g c key front (i :: todo)) (hP : P done s g.plain) :
    PutsBehind f (fun j => j = c ∨ f.IsBelow j c) (visitAll bound visit depth i front.length) s g c
      key front i todo (P (done ++ [i] ++ f.nodesTo depth i)) := by
  obtain ⟨hi, hc⟩ := hf.lt_size_of_hangsFrom hic
  have hdone : i ∉ done := fun hmem =>
    (List.nodup_append.1 (List.nodup_append.1 hnodup).1).2.2 i hmem i List.mem_cons_self rfl
  obtain ⟨new, s₁, g₁, hrun, hkeys₁, hsame, hone, hnew, hat₁, hP₁⟩ :=
    hvisit.putsBehind done i c hic hdone s g key front todo hkeys hat hP
  have hsame' : SameBut f (fun j => j = c ∨ f.IsBelow j c) g g₁ := fun j hj hne =>
    hsame j hj fun h => hne (Or.inl h)
  have hkind := hvisit.isContainer_eq hP₁ hi
  cases hcontainer : f.isContainer i with
  | true =>
    obtain ⟨s₂, g₂, hrun₂, hkeys₂, hsame₂, hP₂⟩ := hwalk (done ++ [i]) s₁ g₁ hnodup hkeys₁ hP₁
    -- nothing that the walk below `i` touches is above `i`
    have hapart : ¬(c = i ∨ f.IsBelow c i) := by
      rintro (rfl | hci)
      · exact hf.acyclic c (Relation.TransGen.single hic)
      · exact hf.acyclic c (hci.tail hic)
    have hbelow : SameBut f (fun j => j = c ∨ f.IsBelow j c) g₁ g₂ := by
      refine fun j hj hne => hsame₂ j hj ?_
      rintro (rfl | hji)
      · exact hne (Or.inr (Relation.TransGen.single hic))
      · exact hne (Or.inr (hji.tail hic))
    exact ⟨new, s₂, g₂, visitAll_of_container hrun (hkind.trans hcontainer) hrun₂, hkeys₂,
      hsame'.trans hbelow, hone, hnew, hat₁.congr (hsame₂ c hc hapart), hP₂⟩
  | false =>
    refine ⟨new, s₁, g₁, visitAll_of_leaf hrun (hkind.trans hcontainer), hkeys₁, hsame', hone, hnew,
      hat₁, ?_⟩
    rw [nodesTo, visitsTo_eq_nil (hf.childrenOf_eq_nil hcontainer), List.map_nil, List.append_nil]
    exact hP₁

/-- A walk that puts new nodes only behind those it visits makes the visits of the nodes that were
there, and comes to its end. -/
theorem Consistent.walk_grows (hf : f.Consistent) {bound : Nat} (hbound : 2 * f.size < bound)
    (hvisit : GrowsBelow f visit P) : ∀ (depth : Nat) (c : NodeId), f.EndsWithin depth c →
      c < f.size → WalksOver f bound visit P depth c
  | 0, _, hdepth, _ => absurd hdepth.pos (Nat.lt_irrefl 0)
  | depth + 1, c, hdepth, hc => by
    intro done s g hnodup hkeys hP
    rw [nodesTo_succ] at hnodup ⊢
    -- The children of `c` have not been visited, so they are what they were.
    have hmem : ∀ i ∈ f.childrenOf c, i ∉ done := fun i hi hdone =>
      (List.nodup_append.1 hnodup).2.2 i hdone i
        (List.mem_flatMap.2 ⟨i, hi, List.mem_cons_self⟩) rfl
    have hchildren : g.childrenOf c = f.childrenOf c := by
      rw [← childrenOf_plain]
      exact hvisit.childrenOf_eq done s g.plain c hP hc hmem
    have hsize : c < g.size := by
      rw [← size_plain]
      exact hc.trans_le (hvisit.size_le done s g.plain hP)
    have hlength := hf.length_childrenOf_le c
    rw [walk_succ]
    refine each_grows
      (P := fun before => P (done ++ before.flatMap fun i => i :: f.nodesTo depth i))
      hkeys hsize (Or.inl rfl) hchildren (by omega) ?_ ?_ (by simpa using hP)
    -- The visit of a child and of all below it, by the hypothesis for one depth less.
    · intro before i rest hsplit s₁ g₁ front hkeys₁ hat hP₁
      have hic : f.HangsFrom i c := by
        refine (hf.mem_childrenOf_iff i c).1 ?_
        rw [hsplit]
        exact List.mem_append_right _ List.mem_cons_self
      have hnext : (done ++ (before ++ [i]).flatMap fun i => i :: f.nodesTo depth i) =
          (done ++ before.flatMap fun i => i :: f.nodesTo depth i) ++ [i] ++ f.nodesTo depth i := by
        simp
      have hfirst : ((done ++ before.flatMap fun i => i :: f.nodesTo depth i) ++ [i] ++
          f.nodesTo depth i).Nodup := by
        rw [hsplit, List.append_cons, List.flatMap_append, ← List.append_assoc, hnext] at hnodup
        exact (List.nodup_append.1 hnodup).1
      show PutsBehind _ _ _ _ _ _ _ _ _ _ (P (done ++ (before ++ [i]).flatMap _))
      rw [hnext]
      exact hf.visitAll_putsBehind hvisit hic
        (hf.walk_grows hbound hvisit depth i (hdepth.child hic) (hf.lt_size_of_hangsFrom hic).1)
        hfirst hkeys₁ hat hP₁
    -- A new node is visited without any effect.
    · intro before j n s₁ g₁ hj hP₁
      obtain ⟨s₂, hrun, hP₂⟩ := hvisit.passesNew _ j n s₁ g₁ hj hP₁
      exact ⟨s₂, visitAll_of_leaf hrun (hvisit.isContainer_eq_false hP₂ hj), hP₂⟩

end Walk

end Forest

end PixelUnit
