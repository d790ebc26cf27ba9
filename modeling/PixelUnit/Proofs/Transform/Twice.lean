import PixelUnit.Proofs.Sheet.Rereading
import PixelUnit.Proofs.Transform.Again
import PixelUnit.Proofs.Transform.NewValues
import PixelUnit.Proofs.Transform.Rewrite

/-!
# Transforming twice

The text that comes out of a transform is read as the tree that was written, but for the raws of the
converted declarations, if the conversions can be read in the place of the values
(`SourceReading.exists_rereading`). In this tree no gate sees a difference but the one for the
custom property, which is shut for every converted declaration, so nothing is converted again
(`transformText_again`).

Steady values are enough for that (`transformsOnce_of_steady`). A length in a word with an escape
behind it is not steady: the word is cut open, and what the backslash escaped is read for itself
(`not_transformsOnce_escapedSheet`).
-/

namespace PixelUnit

open Sheet

namespace Forest

variable {f g : Forest}

/-! ## Trees that match -/

theorem places_eq {E : Nat → Content → Raws → Content → Raws → Prop} {ts ts' : List Tree}
    {i : Nat} (h : Tree.MatchesAll E i ts ts') (j : Nat) : places j ts' = places j ts := by
  induction ts generalizing ts' i j with
  | nil =>
    cases ts' with
    | nil => rfl
    | cons t' ts' => exact h.elim
  | cons t ts ih =>
    cases ts' with
    | nil => exact h.elim
    | cons t' ts' => rw [places, places, h.1.size_eq, ih h.2]

/-- Two nodes hang from the same node, have the same children and are related by `E`. -/
structure SlotMatches (E : Content → Raws → Content → Raws → Prop) (s s' : Slot) : Prop where
  parent : s'.parent = s.parent
  children : s'.children = s.children
  node : E s.content s.raws s'.content s'.raws

mutual

/-- Trees that match have nodes that match. -/
theorem Holds.exists_slots {E : Nat → Content → Raws → Content → Raws → Prop} :
    ∀ {t t' : Tree} {p : Option NodeId} {i : Nat}, f.Holds p i t → g.Holds p i t' →
      Tree.Matches E i t t' → ∀ j : Nat, i ≤ j → j < i + t.size →
      ∃ s s', f.get? j = some s ∧ g.get? j = some s' ∧ SlotMatches (E j) s s'
  | .node content raws ts, .node content' raws' ts', p, i, hf, hg, h, j, hj, hlt => by
    have hsize : (Sheet.Tree.node content raws ts).size = Tree.sizes ts + 1 := rfl
    rcases Nat.eq_or_lt_of_le hj with rfl | hlt'
    · exact ⟨_, _, hf.1, hg.1, rfl, places_eq h.2 _, h.1⟩
    · exact HoldsAll.exists_slots hf.2 hg.2 h.2 j hlt' (by omega)

theorem HoldsAll.exists_slots {E : Nat → Content → Raws → Content → Raws → Prop} :
    ∀ {ts ts' : List Tree} {q i : Nat}, f.HoldsAll q i ts → g.HoldsAll q i ts' →
      Tree.MatchesAll E i ts ts' → ∀ j : Nat, i ≤ j → j < i + Tree.sizes ts →
      ∃ s s', f.get? j = some s ∧ g.get? j = some s' ∧ SlotMatches (E j) s s'
  | [], [], q, i, _, _, _, j, hj, hlt => absurd hlt (Nat.not_lt_of_le hj)
  | t :: ts, t' :: ts', q, i, hf, hg, h, j, hj, hlt => by
    have hsize : Tree.sizes (t :: ts) = t.size + Tree.sizes ts := rfl
    by_cases hfirst : j < i + t.size
    · exact Holds.exists_slots hf.1 hg.1 h.1 j hj hfirst
    · have hg' := hg.2
      rw [h.1.size_eq] at hg'
      exact HoldsAll.exists_slots hf.2 hg' h.2 j (by omega) (by omega)

end

mutual

/-- What holds of the nodes of a tree in a forest. -/
theorem Holds.allAt {P : Nat → Content → Raws → Prop} :
    ∀ {t : Tree} {p : Option NodeId} {i : Nat}, f.Holds p i t →
      (∀ (j : Nat) (s : Slot), f.get? j = some s → P j s.content s.raws) → t.AllAt P i
  | .node _ _ _, _, i, hf, h => ⟨h i _ hf.1, HoldsAll.allAt hf.2 h⟩

theorem HoldsAll.allAt {P : Nat → Content → Raws → Prop} :
    ∀ {ts : List Tree} {q i : Nat}, f.HoldsAll q i ts →
      (∀ (j : Nat) (s : Slot), f.get? j = some s → P j s.content s.raws) → Tree.AllAtOf P i ts
  | [], _, _, _, _ => trivial
  | _ :: _, _, _, hf, h => ⟨Holds.allAt hf.1 h, HoldsAll.allAt hf.2 h⟩

end

end Forest

namespace Sheet.Tree

variable {r : Nat → String → String → Option String}

mutual

/-- New values that are none change nothing. -/
theorem mapValues_eq_self : ∀ {t : Tree} {i : Nat},
    t.AllAt (fun j content _ => newContent (r j) content = content) i → t.mapValues r i = t
  | .node content raws ts, i, h => by
    rw [mapValues, h.1, mapValuesOf_eq_self h.2]

theorem mapValuesOf_eq_self : ∀ {ts : List Tree} {i : Nat},
    AllAtOf (fun j content _ => newContent (r j) content = content) i ts → mapValuesOf r i ts = ts
  | [], _, _ => rfl
  | t :: ts, i, h => by rw [mapValuesOf, mapValues_eq_self h.1, mapValuesOf_eq_self h.2]

end

end Sheet.Tree

namespace Forest

variable {s : Settings} {file : Option String} {tree tree' : Tree}

/-- What a value must be so that it is not converted again. -/
def Named (s : Settings) (value : String) : Prop :=
  Text.contains value s.variableName = true

/-- The values that the transform writes are the only difference to gates. -/
theorem sameButValues_of_matches {r : Nat → String → String → Option String} {Q : String → Prop}
    (h : Tree.Matches (Tree.Renewed r Q) 0 tree tree') :
    SameButValues (ofTree tree).2 (ofTree tree').2 := by
  intro i
  obtain ⟨-, hsize, hholds⟩ := ofTree_holds tree
  obtain ⟨-, hsize', hholds'⟩ := ofTree_holds tree'
  by_cases hi : i < tree.size
  · obtain ⟨t, t', ht, ht', hmatch⟩ := hholds.exists_slots hholds' h i (Nat.zero_le i)
      (by rwa [Nat.zero_add])
    have hcontent : t'.content.outline = t.content.outline := by
      have hnode := hmatch.node
      generalize t.content = content, t.raws = raws, t'.content = content', t'.raws = raws' at hnode
      cases hnode <;> rfl
    rw [ht, ht', Option.map_some, Option.map_some, Slot.outline, Slot.outline, hmatch.parent,
      hmatch.children, hcontent]
  · have hnone : ∀ e : Forest, e.size = tree.size → e.get? i = none := fun e he =>
      Array.getElem?_eq_none (show e.size ≤ i from he ▸ Nat.le_of_not_lt hi)
    rw [hnone _ hsize, hnone _ (hsize'.trans h.size_eq)]

/-- A tree that was read again after it was transformed has nothing to convert. -/
theorem mapValues_newValue_again
    (h : Tree.Matches (Tree.Renewed ((ofTree tree).2.newValue s file) (Named s)) 0 tree tree') :
    tree'.mapValues ((ofTree tree').2.newValue s file) 0 = tree' := by
  obtain ⟨-, hsize, hholds⟩ := ofTree_holds tree
  obtain ⟨-, hsize', hholds'⟩ := ofTree_holds tree'
  have hsame := sameButValues_of_matches h
  refine Tree.mapValues_eq_self (hholds'.allAt fun i t' ht' => ?_)
  have hi : i < tree.size := by
    rw [← h.size_eq, ← hsize']
    exact lt_size_of_get? ht'
  obtain ⟨t, u, ht, hu, hmatch⟩ := hholds.exists_slots hholds' h i (Nat.zero_le i)
    (by rwa [Nat.zero_add])
  obtain rfl : u = t' := Option.some.inj (hu.symm.trans ht')
  have hnode := hmatch.node
  generalize t.content = content, t.raws = raws, u.content = content', u.raws = raws' at hnode
  cases hnode with
  | same hnone =>
    cases content with
    | root | rule | atRule | comment => rfl
    | declaration prop value important =>
      have hold := hnone prop value important rfl
      rw [Tree.newContent, newValue, hsame.gateOf]
      rw [newValue] at hold
      rw [hold, Option.getD_none]
  | value _ hnamed _ =>
    rw [Tree.newContent, newValue, if_neg fun hboth =>
      gateOf_ne_none_of_contains _ _ file hnamed hboth.1, Option.getD_none]

end Forest

/-- If every declaration that is converted can be read with its new value, the text that comes out
is read without a fault again, and transforming it changes nothing. -/
theorem transformText_again [Regex.CharacterNames] {css : String} {file : Option String}
    {tree : Tree}
    {base s : Settings} {overrides : Settings.Entries}
    (htree : (SourceReading.ofSource css file).tree = .ok tree)
    (hfaults : (SourceReading.ofSource css file).faults = [])
    (hs : base.merge overrides = .ok s) (hreplaces : s.replaces = true)
    (hall : tree.AllAt (Tree.Renewable ((Forest.ofTree tree).2.newValue s file)
      (Forest.Named s)) 0) :
    ∃ out tree', transformText css file base overrides = .ok out ∧
      (SourceReading.ofSource out file).tree = .ok tree' ∧
      (SourceReading.ofSource out file).faults = [] ∧
      transformText out file base overrides = .ok out := by
  obtain ⟨tree', htree', hfaults', hmatches⟩ := SourceReading.exists_rereading htree hfaults hall
  refine ⟨_, tree', transformText_eq htree hs hreplaces, htree', hfaults', ?_⟩
  rw [transformText_eq htree' hs hreplaces, Forest.mapValues_newValue_again hmatches,
    SourceReading.text_eq_source htree' (by rw [hfaults']; nofun)]

/-! ## Steady sheets -/

namespace Forest

/-- Whether a node is no declaration, or one with a steady value. -/
def SteadyNode (raws : Raws) : Content → Prop
  | .declaration _ value important =>
    Lengths.Steady (Tree.writtenValue raws value) value (Tree.markText raws important)
  | _ => True

instance (raws : Raws) : (c : Content) → Decidable (SteadyNode raws c)
  | .declaration .. => inferInstanceAs (Decidable (Lengths.Steady _ _ _))
  | .root _ | .rule _ | .atRule .. | .comment _ => inferInstanceAs (Decidable True)

/-- Whether every declaration that is converted has a steady value. -/
def Steady (f : Forest) (s : Settings) (file : Option String) : Prop :=
  ∀ i < f.size, f.changesAt s file i = true → ∀ t ∈ f.get? i, SteadyNode t.raws t.content

instance (f : Forest) (s : Settings) (file : Option String) : Decidable (f.Steady s file) :=
  inferInstanceAs (Decidable (∀ i < f.size, _ → _))

/-- Where a declaration is converted, there is a custom property. -/
theorem variableName_ne {f : Forest} {i : NodeId} {prop value : String}
    (h : f.gateOf s i prop value file = none) : s.variableName.toList ≠ [] := by
  have hgate := List.find?_eq_none.1 h .path (List.mem_filter.2 ⟨by decide, rfl⟩)
  have hcovers : s.covers file = true := by simpa [shuts] using hgate
  have hactive : s.isActive = true := by
    unfold Settings.covers at hcovers
    exact (Bool.and_eq_true_iff.1 hcovers).1
  intro hnil
  have hname : s.variableName = "" := String.toList_inj.1 hnil
  simp [Settings.isActive, hname] at hactive

/-- Steady declarations can be read with their new values. -/
theorem Steady.renewable {tree : Tree} (h : (ofTree tree).2.Steady s file)
    (hfunction : s.fallbackFunction = none)
    (hname : ∀ c ∈ s.variableName.toList, c.isAlphanum = true ∨ c = '-') :
    tree.AllAt (Tree.Renewable ((ofTree tree).2.newValue s file) (Named s)) 0 := by
  obtain ⟨-, -, hholds⟩ := ofTree_holds tree
  refine hholds.allAt fun i t ht prop value important hcontent new hnew => ?_
  unfold newValue at hnew
  split at hnew
  · next hconverted =>
    obtain rfl := Option.some.inj hnew
    obtain ⟨hgate, hchange⟩ := hconverted
    have hdecl : (ofTree tree).2.contentOf i = some (.declaration prop value important) := by
      unfold contentOf
      rw [ht, Option.map_some, hcontent]
    have hchanges : (ofTree tree).2.changesAt s file i = true := by
      rw [changesAt_declaration s file hdecl, hgate]
      simpa using hchange
    have hsteady := h i (lt_size_of_get? ht) hchanges t ht
    rw [hcontent] at hsteady
    have hfallback : s.fallback = .none ∨ s.fallback = .origin := by
      unfold Settings.fallback
      rw [hfunction]
      cases s.fallbackOrigin <;> simp
    exact ⟨hchange, hsteady.exists_exchange (variableName_ne hgate)
      (fun c hc => Lengths.isPlain_of_isAlphanum (hname c hc)) hfallback hchange⟩
  · cases hnew

end Forest

/-- The text that comes out is read without a fault, and it comes out again when it is
transformed. -/
def TransformsOnce [Regex.CharacterNames] (css : String) (file : Option String) (base : Settings)
    (overrides : Settings.Entries) : Prop :=
  ∃ out tree, transformText css file base overrides = .ok out ∧
    (SourceReading.ofSource out file).tree = .ok tree ∧
    (SourceReading.ofSource out file).faults = [] ∧
    transformText out file base overrides = .ok out

/-- Transforming a sheet that is read without a fault twice is the same as transforming it once, if
the values that are converted are steady. -/
theorem transformsOnce_of_steady [Regex.CharacterNames] {css : String} {file : Option String}
    {tree : Tree}
    {base s : Settings} {overrides : Settings.Entries}
    (htree : (SourceReading.ofSource css file).tree = .ok tree)
    (hfaults : (SourceReading.ofSource css file).faults = [])
    (hs : base.merge overrides = .ok s) (hreplaces : s.replaces = true)
    (hfunction : s.fallbackFunction = none)
    (hname : ∀ c ∈ s.variableName.toList, c.isAlphanum = true ∨ c = '-')
    (hsteady : (Forest.ofTree tree).2.Steady s file) : TransformsOnce css file base overrides :=
  transformText_again htree hfaults hs hreplaces (hsteady.renewable hfunction hname)

attribute [local instance] Regex.CharacterNames.none

theorem transformsOnce_mixedSheet :
    ∃ tree, (SourceReading.ofSource mixedSheet (some "a.css")).tree = .ok tree ∧
      (SourceReading.ofSource mixedSheet (some "a.css")).faults = [] ∧
      Forest.nestedSettings.merge [("replace", .bool true)] = .ok Forest.nestedSettings ∧
      (Forest.ofTree tree).2.Steady Forest.nestedSettings (some "a.css") ∧
      TransformsOnce mixedSheet (some "a.css") Forest.nestedSettings [("replace", .bool true)] := by
  have hfaults : (SourceReading.ofSource mixedSheet (some "a.css")).faults = [] := by
    decide +kernel
  have hsteady : ((SourceReading.ofSource mixedSheet (some "a.css")).tree.toOption.any fun tree =>
      decide ((Forest.ofTree tree).2.Steady Forest.nestedSettings (some "a.css"))) = true := by
    decide +kernel
  cases htree : (SourceReading.ofSource mixedSheet (some "a.css")).tree with
  | error e =>
    rw [htree] at hsteady
    cases hsteady
  | ok tree =>
    rw [htree] at hsteady
    have hsteady := of_decide_eq_true hsteady
    exact ⟨tree, rfl, hfaults, rfl, hsteady, transformsOnce_of_steady htree hfaults rfl rfl rfl
      (List.all_iff_forall_prop.1 (by decide +kernel)) hsteady⟩

/-- A semicolon that is escaped in a word behind a length. -/
def escapedSheet : String :=
  "a\x7bp:1px\\;b\x7d"

/-- What the escape stands in is no word any more when the length is converted, so that the
semicolon ends the statement. -/
theorem not_transformsOnce_escapedSheet :
    (SourceReading.ofSource escapedSheet (some "a.css")).tree.isOk = true ∧
      (SourceReading.ofSource escapedSheet (some "a.css")).faults = [] ∧
      Forest.nestedSettings.merge [] = .ok Forest.nestedSettings ∧
      Forest.nestedSettings.replaces = true ∧ Forest.nestedSettings.fallbackFunction = none ∧
      (∀ c ∈ Forest.nestedSettings.variableName.toList, c.isAlphanum = true ∨ c = '-') ∧
      ¬TransformsOnce escapedSheet (some "a.css") Forest.nestedSettings [] := by
  refine ⟨by decide +kernel, by decide +kernel, rfl, rfl, rfl,
    List.all_iff_forall_prop.1 (by decide +kernel), ?_⟩
  rintro ⟨out, tree, hout, htree, -⟩
  have hbroken : (match transformText escapedSheet (some "a.css") Forest.nestedSettings [] with
      | .ok out => (SourceReading.ofSource out (some "a.css")).tree.isOk
      | .error _ => true) = false := by
    decide +kernel
  rw [hout] at hbroken
  dsimp only at hbroken
  rw [htree] at hbroken
  cases hbroken

end PixelUnit
