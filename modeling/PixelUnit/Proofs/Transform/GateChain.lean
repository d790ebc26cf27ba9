import PixelUnit.Proofs.Text.Contains
import PixelUnit.Proofs.Transform.Insert

/-!
# The chain of gates

A gate fires for a declaration when what it asks for holds, whether or not the settings have a use
for it (`Forest.Fires`). The answer of the chain is the first of all gates that fires
(`Consistent.isFirst_of_skippedBy`): those that are left out never fire.

Of a blacklist only the entries count that match, each for itself. So a declaration passes two lists
put together if and only if it passes both, and longer lists let fewer declarations through
(`Consistent.gates_chain`). Nothing of this depends on what an expression matches; the search for
it is a parameter.
-/

namespace PixelUnit

open Sheet

/-- What it means that an expression matches somewhere in a text. -/
abbrev Search := Regex → String → Prop

/-- Expressions match where they are found. -/
def Regex.Finds : Search := fun r text => r.finds text = true

namespace Blacklist

/-- An entry matches a text: it is a stretch of it, or an expression that matches somewhere in
it. -/
def Entry.Matches (search : Search) (subject : String) : Entry → Prop
  | substring text => text.toList <:+: subject.toList
  | regex r => search r subject

theorem Entry.hits_iff {e : Entry} {subject : String} :
    e.hits subject = true ↔ e.Matches Regex.Finds subject := by
  cases e with
  | substring text => exact Text.contains_iff
  | regex r => exact Iff.rfl

/-- A blacklist hits a text if one of its entries matches. -/
theorem hits_some_iff {b : Blacklist} {subject : String} :
    b.hits (some subject) = true ↔ ∃ e ∈ b, e.Matches Regex.Finds subject := by
  unfold hits
  rw [Option.any_some, List.any_eq_true]
  exact exists_congr fun e => and_congr_right fun _ => Entry.hits_iff

end Blacklist

/-! ## The first gate -/

namespace Gate

variable {fires : Gate → Prop} {gates : List Gate}

/-- An answer is the first of some gates that fires, if one does. -/
def IsFirst (fires : Gate → Prop) (gates : List Gate) : Option Gate → Prop
  | none => ∀ gate ∈ gates, ¬fires gate
  | some gate => ∃ front back, gates = front ++ gate :: back ∧ fires gate ∧ ∀ g ∈ front, ¬fires g

theorem mem_all (gate : Gate) : gate ∈ all := by
  cases gate <;> decide

/-- The first gate that fires is the one that is found first. -/
theorem isFirst_iff_find? {p : Gate → Bool} (hp : ∀ gate, p gate = true ↔ fires gate)
    {answer : Option Gate} : IsFirst fires gates answer ↔ gates.find? p = answer := by
  have hnot (gate : Gate) : ¬p gate = true ↔ ¬fires gate := not_congr (hp gate)
  cases answer with
  | none =>
    rw [List.find?_eq_none]
    exact forall₂_congr fun gate _ => (hnot gate).symm
  | some gate =>
    rw [List.find?_eq_some_iff_append, hp gate]
    simp only [IsFirst, Bool.not_eq_true', ← Bool.not_eq_true, hnot]
    constructor
    · rintro ⟨front, back, hgates, hfires, hfront⟩
      exact ⟨hfires, front, back, hgates, hfront⟩
    · rintro ⟨hfires, front, back, hgates, hfront⟩
      exact ⟨front, back, hgates, hfires, hfront⟩

/-- Gates that never fire may be left out. -/
theorem isFirst_filter {used : Gate → Bool} (hused : ∀ gate, fires gate → used gate = true)
    {answer : Option Gate} :
    IsFirst fires (gates.filter used) answer ↔ IsFirst fires gates answer := by
  classical
  have hp (gate : Gate) : decide (fires gate) = true ↔ fires gate := decide_eq_true_iff
  have hboth : (fun gate => decide (used gate = true ∧ decide (fires gate) = true)) =
      fun gate => decide (fires gate) := by
    funext gate
    by_cases hfires : fires gate <;> simp [hfires, hused]
  rw [isFirst_iff_find? hp, isFirst_iff_find? hp, List.find?_filter, hboth]

end Gate

/-! ## What fires -/

namespace Forest

variable {f : Forest} {i : NodeId} {s : Settings} {prop value : String} {file : Option String}
  {search : Search}

/-- A gate fires for a declaration with a given property and value, in a stylesheet with a given
path. -/
def Fires (f : Forest) (search : Search) (s : Settings) (i : NodeId) (prop value : String)
    (file : Option String) : Gate → Prop
  | .path => ¬∃ r path, s.pathPattern = some r ∧ s.variableName ≠ "" ∧ file = some path ∧
      path ≠ "" ∧ search r path
  | .unit => ¬"px".toList <:+: value.toList
  | .variableName =>
    s.variableName.toList <:+: value.toList ∨ s.variableName.toList <:+: prop.toList
  | .selector => ∃ p selector, f.parentOf i = some p ∧ f.contentOf p = some (.rule selector) ∧
      ∃ e ∈ s.selectorBlacklist, e.Matches search selector
  | .prop => ∃ e ∈ s.propBlacklist, e.Matches search prop
  | .ignore => ∃ text, s.ignoreMark = .text text ∧ text ≠ "" ∧
      (text.toList <:+: value.toList ∨ ∃ p front j back, f.parentOf i = some p ∧
        f.childrenOf p = front ++ i :: j :: back ∧ f.contentOf j = some (.comment text))

/-- No gate fires for a declaration. -/
def Passes (f : Forest) (search : Search) (s : Settings) (i : NodeId) (prop value : String)
    (file : Option String) : Prop :=
  ∀ gate, ¬f.Fires search s i prop value file gate

/-- A declaration passes if and only if no gate is the first that fires. -/
theorem passes_iff_of_isFirst {answer : Option Gate}
    (h : Gate.IsFirst (f.Fires search s i prop value file) Gate.all answer) :
    answer = none ↔ f.Passes search s i prop value file := by
  cases answer with
  | none => exact iff_of_true rfl fun gate => h gate gate.mem_all
  | some gate =>
    obtain ⟨-, -, -, hfires, -⟩ := h
    exact iff_of_false (Option.some_ne_none gate) fun hpasses => hpasses gate hfires

theorem ignoredText?_eq_some_iff {text : String} :
    s.ignoredText? = some text ↔ s.ignoreMark = .text text ∧ text ≠ "" := by
  unfold Settings.ignoredText?
  cases s.ignoreMark with
  | off | unset => simp
  | text t =>
    by_cases ht : t = ""
    · simp only [ht, beq_self_eq_true, if_true, reduceCtorEq, false_iff, not_and, not_not]
      exact fun h => (Settings.IgnoreMark.text.inj h).symm
    · simp only [beq_eq_false_iff_ne.2 ht, Bool.false_eq_true, if_false, Option.some.injEq,
        Settings.IgnoreMark.text.injEq]
      exact ⟨fun h => ⟨h, h ▸ ht⟩, And.left⟩

/-- A gate that fires is used. -/
theorem isUsed_of_fires {gate : Gate} (h : f.Fires search s i prop value file gate) :
    gate.isUsed s = true := by
  cases gate with
  | path | unit | variableName => rfl
  | selector =>
    obtain ⟨p, selector, -, -, e, he, -⟩ := h
    simpa [Gate.isUsed] using List.ne_nil_of_mem he
  | prop =>
    obtain ⟨e, he, -⟩ := h
    simpa [Gate.isUsed] using List.ne_nil_of_mem he
  | ignore =>
    obtain ⟨text, hmark, hne, -⟩ := h
    unfold Gate.isUsed
    rw [ignoredText?_eq_some_iff.2 ⟨hmark, hne⟩]
    rfl

/-- The selector of a declaration is that of the rule it hangs from. -/
theorem selectorOf_eq_some_iff {selector : String} :
    f.selectorOf i = some selector ↔
      ∃ p, f.parentOf i = some p ∧ f.contentOf p = some (.rule selector) := by
  rw [← Option.bind_eq_some_iff]
  unfold selectorOf
  split
  · next h => simp [h]
  · next h => simpa using h selector

/-- The node behind another stands right behind it among the children of their parent. -/
theorem Consistent.nextOf_eq_some_iff (hf : f.Consistent) {j : NodeId} :
    f.nextOf i = some j ↔
      ∃ p front back, f.parentOf i = some p ∧ f.childrenOf p = front ++ i :: j :: back := by
  cases hp : f.parentOf i with
  | none => simp [nextOf, hp]
  | some p =>
    obtain ⟨front, rest, hsplit⟩ := List.append_of_mem ((hf.mem_childrenOf_iff i p).2 hp)
    have hnodup : (front ++ i :: rest).Nodup := hsplit ▸ hf.nodup_childrenOf p
    have hfront : i ∉ front := fun h => (List.nodup_append.1 hnodup).2.2 i h i (by simp) rfl
    rw [nextOf_eq_head? hp hsplit hfront]
    constructor
    · intro h
      obtain ⟨back, rfl⟩ := List.head?_eq_some_iff.1 h
      exact ⟨p, front, back, rfl, hsplit⟩
    · rintro ⟨q, front', back, hq, hsplit'⟩
      obtain rfl : p = q := Option.some.inj hq
      rw [hsplit] at hsplit'
      have hfront' : i ∉ front' := fun h =>
        (List.nodup_append.1 (hsplit' ▸ hnodup)).2.2 i h i (by simp) rfl
      have hlength : front.length = front'.length := by
        have hindex := congrArg (·.idxOf? i) hsplit'
        simpa only [idxOf?_append_cons hfront, idxOf?_append_cons hfront', Option.some.injEq]
          using hindex
      rw [(List.cons.inj (List.append_inj hsplit' hlength).2).2, List.head?_cons]

/-- A gate is shut when it fires. -/
theorem Consistent.shuts_iff_fires (hf : f.Consistent) {gate : Gate} :
    f.shuts s i prop value file gate = true ↔ f.Fires Regex.Finds s i prop value file gate := by
  cases gate with
  | path =>
    unfold shuts Fires Settings.covers Settings.isActive
    rw [Bool.not_eq_true', ← Bool.not_eq_true]
    refine not_congr ?_
    cases s.pathPattern <;> cases file <;> simp [Regex.Finds]
  | unit =>
    unfold shuts Fires
    rw [Bool.not_eq_true', ← Bool.not_eq_true]
    exact not_congr Text.contains_iff
  | variableName =>
    unfold shuts Fires
    rw [Bool.or_eq_true, Text.contains_iff, Text.contains_iff]
  | selector =>
    unfold shuts Fires
    -- Selectors count in rules only; what else a declaration hangs from has none.
    cases hselector : f.selectorOf i with
    | none =>
      refine iff_of_false (by simp [Blacklist.hits]) ?_
      rintro ⟨p, selector, hp, hrule, -⟩
      rw [selectorOf_eq_some_iff.2 ⟨p, hp, hrule⟩] at hselector
      cases hselector
    | some selector =>
      rw [Blacklist.hits_some_iff]
      obtain ⟨p, hp, hrule⟩ := selectorOf_eq_some_iff.1 hselector
      constructor
      · exact fun h => ⟨p, selector, hp, hrule, h⟩
      · rintro ⟨q, selector', hq, hrule', h⟩
        obtain rfl : p = q := Option.some.inj (hp.symm.trans hq)
        obtain rfl : selector = selector' :=
          Content.rule.inj (Option.some.inj (hrule.symm.trans hrule'))
        exact h
  | prop => exact Blacklist.hits_some_iff
  | ignore =>
    unfold shuts Fires
    rw [Option.any_eq_true]
    refine exists_congr fun text => ?_
    rw [Bool.or_eq_true, Text.contains_iff, beq_iff_eq, Option.bind_eq_some_iff,
      ignoredText?_eq_some_iff, and_assoc]
    refine and_congr_right fun _ => and_congr_right fun _ => or_congr_right ?_
    -- The comment is looked for behind the declaration in the list of its siblings.
    constructor
    · rintro ⟨j, hj, hcomment⟩
      obtain ⟨p, front, back, hp, hsplit⟩ := hf.nextOf_eq_some_iff.1 hj
      exact ⟨p, front, j, back, hp, hsplit, hcomment⟩
    · rintro ⟨p, front, j, back, hp, hsplit, hcomment⟩
      exact ⟨j, hf.nextOf_eq_some_iff.2 ⟨p, front, back, hp, hsplit⟩, hcomment⟩

/-- The answer of the gates is the first of the chain that fires. -/
theorem Consistent.isFirst_gateOf (hf : f.Consistent) :
    Gate.IsFirst (f.Fires Regex.Finds s i prop value file) Gate.all
      (f.gateOf s i prop value file) := by
  rw [← Gate.isFirst_filter fun _ => isUsed_of_fires]
  exact (Gate.isFirst_iff_find? fun _ => hf.shuts_iff_fires).2 rfl

/-- A declaration that no gate keeps as it is passes all of them. -/
theorem Consistent.gateOf_eq_none_iff (hf : f.Consistent) :
    f.gateOf s i prop value file = none ↔ f.Passes Regex.Finds s i prop value file :=
  passes_iff_of_isFirst hf.isFirst_gateOf

/-- The answer of the chain is the first of all gates that fires, and the forest is left as it
is. -/
theorem Consistent.isFirst_of_skippedBy (hf : f.Consistent) :
    ∃ answer, (skippedBy s i prop value file).run f = .ok answer f ∧
      Gate.IsFirst (f.Fires Regex.Finds s i prop value file) Gate.all answer :=
  ⟨f.gateOf s i prop value file, skippedBy_apply (hf.listed i), hf.isFirst_gateOf⟩

/-! ## Longer blacklists -/

variable {S S₁ S₂ P₁ P₂ : Blacklist}

/-- Two lists put together have an entry that matches if one of them does. -/
theorem exists_matches_append {subject : String} :
    (∃ e ∈ P₁ ++ P₂, e.Matches search subject) ↔
      (∃ e ∈ P₁, e.Matches search subject) ∨ ∃ e ∈ P₂, e.Matches search subject := by
  simp only [List.mem_append, or_and_right, exists_or]

/-- A gate fires for lists put together if it fires for one of them. -/
theorem fires_append {gate : Gate} :
    f.Fires search { s with selectorBlacklist := S₁ ++ S₂, propBlacklist := P₁ ++ P₂ }
        i prop value file gate ↔
      f.Fires search { s with selectorBlacklist := S₁, propBlacklist := P₁ }
        i prop value file gate ∨
      f.Fires search { s with selectorBlacklist := S₂, propBlacklist := P₂ }
        i prop value file gate := by
  cases gate with
  | selector => simp only [Fires, exists_matches_append, and_or_left, exists_or]
  | prop => exact exists_matches_append
  | path | unit | variableName | ignore => exact (or_self_iff).symm

/-- Lists with more entries let nothing through that shorter ones keep back. -/
theorem Fires.of_subset {gate : Gate} (hS : S₁ ⊆ S₂) (hP : P₁ ⊆ P₂)
    (h : f.Fires search { s with selectorBlacklist := S₁, propBlacklist := P₁ }
      i prop value file gate) :
    f.Fires search { s with selectorBlacklist := S₂, propBlacklist := P₂ }
      i prop value file gate := by
  cases gate with
  | selector =>
    obtain ⟨p, selector, hp, hrule, e, he, hmatches⟩ := h
    exact ⟨p, selector, hp, hrule, e, hS he, hmatches⟩
  | prop =>
    obtain ⟨e, he, hmatches⟩ := h
    exact ⟨e, hP he, hmatches⟩
  | path | unit | variableName | ignore => exact h

/-- Outside of rules, selectors do not count. -/
theorem fires_congr_selector {gate : Gate}
    (hnot : ∀ p selector, f.parentOf i = some p → f.contentOf p ≠ some (.rule selector)) :
    f.Fires search { s with selectorBlacklist := S } i prop value file gate ↔
      f.Fires search s i prop value file gate := by
  cases gate with
  | selector =>
    refine iff_of_false ?_ ?_
    · rintro ⟨p, selector, hp, hrule, -⟩
      exact hnot p selector hp hrule
    · rintro ⟨p, selector, hp, hrule, -⟩
      exact hnot p selector hp hrule
  | path | unit | variableName | prop | ignore => exact Iff.rfl

/-! ## What is rewritten -/

/-- A visit rewrites a declaration. -/
def Rewrites (f : Forest) (s : Settings) (file : Option String) (i : NodeId) : Prop :=
  ∃ index log log' g, (visitDeclaration s file i index).run log f = .ok (true, log') g

/-- A visit rewrites what changes, but puts no copy behind what hangs from nothing. -/
theorem Consistent.rewrites_iff (hf : f.Consistent) :
    f.Rewrites s file i ↔
      f.changesAt s file i = true ∧ (s.replaces = true ∨ f.parentOf i ≠ none) := by
  -- What does not change is not rewritten.
  cases hchanges : f.changesAt s file i with
  | false =>
    refine iff_of_false ?_ (by simp)
    rintro ⟨index, log, log', g, hrun⟩
    obtain ⟨log'', hrun'⟩ := visitDeclaration_of_changesAt_eq_false (hf.listed i) hchanges index log
    cases hrun.symm.trans hrun'
  | true =>
    rw [eq_self_iff_true, true_and]
    cases hs : s.replaces with
    | true =>
      obtain ⟨log', hrun⟩ := visitDeclaration_apply file hs (hf.listed i) 0 []
      rw [hchanges] at hrun
      exact iff_of_true ⟨0, [], log', _, hrun⟩ (Or.inl rfl)
    | false =>
      obtain ⟨prop, value, important, hc, hgate, hvalue⟩ := exists_declaration_of_changesAt hchanges
      obtain ⟨t, ht, hcontent⟩ := Option.map_eq_some_iff.1 hc
      -- A copy is put in behind the declaration, which must hang from a node for that.
      cases hp : f.parentOf i with
      | none =>
        refine iff_of_false ?_ (by simp)
        rintro ⟨index, log, log', g, hrun⟩
        have hrun' : visitDeclaration s file i index log f = .ok (true, log') g := hrun
        unfold visitDeclaration at hrun'
        rw [Walk.getThe_bind_apply, hc] at hrun'
        dsimp only at hrun'
        rw [Walk.lift_bind_ok (skippedBy_apply (hf.listed i)), hgate] at hrun'
        simp only [beq_eq_false_iff_ne.2 hvalue, hs, Bool.false_eq_true, if_false] at hrun'
        rw [Walk.getThe_bind_apply, hp] at hrun'
        cases hrun'
      | some p =>
        have hleaf : t.children = [] := by
          rw [← childrenOf_of_get? ht]
          refine hf.childrenOf_eq_nil ?_
          unfold isContainer
          rw [hc]
          rfl
        obtain ⟨log', hrun⟩ := visitDeclaration_of_inserts hs (hf.listed i) ht hleaf
          ((parentOf_of_get? ht).symm.trans hp) hchanges 0 []
        exact iff_of_true ⟨0, [], log', _, hrun⟩ (by simp)

/-- What changes under longer lists changes under shorter ones. -/
theorem Consistent.changesAt_of_subset (hf : f.Consistent) (hS : S₁ ⊆ S₂) (hP : P₁ ⊆ P₂)
    (h : f.changesAt { s with selectorBlacklist := S₂, propBlacklist := P₂ } file i = true) :
    f.changesAt { s with selectorBlacklist := S₁, propBlacklist := P₁ } file i = true := by
  obtain ⟨prop, value, important, hc, hgate, hvalue⟩ := exists_declaration_of_changesAt h
  have hpasses := hf.gateOf_eq_none_iff.1 hgate
  have hgate' : f.gateOf { s with selectorBlacklist := S₁, propBlacklist := P₁ } i prop value file =
      none := hf.gateOf_eq_none_iff.2 fun gate hfires => hpasses gate (hfires.of_subset hS hP)
  rw [changesAt_declaration _ file hc, hgate', beq_self_eq_true, Bool.true_and]
  exact bne_iff_ne.2 hvalue

/-- The transform counts the declarations below the root that change. -/
theorem Consistent.transform_counts (hf : f.Consistent) (s : Settings) {root : NodeId}
    (hroot : root < f.size) :
    ∃ log g, transform s root f =
      .ok (((f.visitsOf root).map Prod.fst).countP (f.changesAt s (f.fileOf root)), log) g := by
  cases hs : s.replaces with
  | true =>
    obtain ⟨count, log, g, hrun, -, -, hcount⟩ := hf.transform_apply hs hroot
    exact ⟨log, g, hcount ▸ hrun⟩
  | false =>
    obtain ⟨count, log, g, hrun, -, copies, -, -, hcount⟩ := hf.transform_inserts hs hroot
    exact ⟨log, g, hcount ▸ hrun⟩

/-- The answer of the chain is the first of all gates that fires, and it makes no difference which
gates are left out. Two blacklists of each kind put together let through what both let through, and
a selector counts in rules only. With more entries a visit rewrites no other declarations, and a
transform no more of them. -/
theorem Consistent.gates_chain (hf : f.Consistent) :
    (∃ answer, (skippedBy s i prop value file).run f = .ok answer f ∧
      Gate.IsFirst (f.Fires Regex.Finds s i prop value file) Gate.all answer ∧
      (answer = none ↔ f.Passes Regex.Finds s i prop value file)) ∧
    (∀ search : Search,
      (∀ answer, Gate.IsFirst (f.Fires search s i prop value file) s.gates answer ↔
        Gate.IsFirst (f.Fires search s i prop value file) Gate.all answer) ∧
      (∀ S₁ S₂ P₁ P₂ : Blacklist,
        f.Passes search { s with selectorBlacklist := S₁ ++ S₂, propBlacklist := P₁ ++ P₂ }
            i prop value file ↔
          f.Passes search { s with selectorBlacklist := S₁, propBlacklist := P₁ }
            i prop value file ∧
          f.Passes search { s with selectorBlacklist := S₂, propBlacklist := P₂ }
            i prop value file) ∧
      ((∀ p selector, f.parentOf i = some p → f.contentOf p ≠ some (.rule selector)) →
        ∀ (S : Blacklist) (gate : Gate),
          f.Fires search { s with selectorBlacklist := S } i prop value file gate ↔
            f.Fires search s i prop value file gate)) ∧
    ∀ S S' P P' : Blacklist, S ⊆ S' → P ⊆ P' →
      (f.Rewrites { s with selectorBlacklist := S', propBlacklist := P' } file i →
        f.Rewrites { s with selectorBlacklist := S, propBlacklist := P } file i) ∧
      ∀ root < f.size,
        (f.IsConvertible { s with selectorBlacklist := S', propBlacklist := P' } root i →
          f.IsConvertible { s with selectorBlacklist := S, propBlacklist := P } root i) ∧
        ∃ count log g count' log' g',
          (transform { s with selectorBlacklist := S, propBlacklist := P } root).run f =
            .ok (count, log) g ∧
          (transform { s with selectorBlacklist := S', propBlacklist := P' } root).run f =
            .ok (count', log') g' ∧ count' ≤ count := by
  -- The four parts about one declaration, and then those about longer blacklists.
  refine ⟨?_, fun search => ⟨fun answer => Gate.isFirst_filter fun _ => isUsed_of_fires, ?_,
    fun hnot S gate => fires_congr_selector hnot⟩, fun S S' P P' hS hP => ⟨fun h => ?_,
    fun root hroot => ⟨fun h => ?_, ?_⟩⟩⟩
  · obtain ⟨answer, hrun, hfirst⟩ := @Consistent.isFirst_of_skippedBy f i s prop value file hf
    exact ⟨answer, hrun, hfirst, passes_iff_of_isFirst hfirst⟩
  · intro S₁ S₂ P₁ P₂
    unfold Passes
    simp only [fires_append, not_or, forall_and]
  · rw [hf.rewrites_iff] at h ⊢
    exact ⟨hf.changesAt_of_subset hS hP h.1, h.2⟩
  · rw [hf.isConvertible_iff] at h ⊢
    exact ⟨h.1, hf.changesAt_of_subset hS hP h.2⟩
  -- A transform counts what changes at the start, so a longer list makes the count no larger.
  · obtain ⟨log, g, hrun⟩ := hf.transform_counts
      { s with selectorBlacklist := S, propBlacklist := P } hroot
    obtain ⟨log', g', hrun'⟩ := hf.transform_counts
      { s with selectorBlacklist := S', propBlacklist := P' } hroot
    exact ⟨_, log, g, _, log', g', hrun, hrun',
      List.countP_mono_left fun d _ hd => hf.changesAt_of_subset hS hP hd⟩

/-- A comment keeps the declaration in front of it; a blacklisted selector can only keep another. -/
theorem gates_chain_nestedTree : (ofTree nestedTree).2.Consistent ∧
    (skippedBy nestedSettings 2 "top" "1px" (some "a.css")).run (ofTree nestedTree).2 =
      .ok (some .ignore) (ofTree nestedTree).2 ∧
    (ofTree nestedTree).2.Fires Regex.Finds nestedSettings 2 "top" "1px" (some "a.css") .ignore ∧
    ∃ count log g count' log' g',
      (transform { nestedSettings with selectorBlacklist := [], propBlacklist := [] } 0).run
        (ofTree nestedTree).2 = .ok (count, log) g ∧
      (transform
        { nestedSettings with selectorBlacklist := [.substring "b"], propBlacklist := [] } 0).run
        (ofTree nestedTree).2 = .ok (count', log') g' ∧ count' ≤ count := by
  obtain ⟨⟨answer, hrun, hfirst, -⟩, -, hsubset⟩ :=
    @Consistent.gates_chain _ 2 nestedSettings "top" "1px" (some "a.css") consistent_nestedTree
  have hanswer : (ofTree nestedTree).2.gateOf nestedSettings 2 "top" "1px" (some "a.css") =
      some .ignore := by
    decide +kernel
  have hskipped :=
    @skippedBy_apply _ 2 nestedSettings "top" "1px" (some "a.css") (consistent_nestedTree.listed 2)
  rw [hanswer] at hskipped
  obtain rfl : answer = some .ignore := (EStateM.Result.ok.inj (hrun.symm.trans hskipped)).1
  obtain ⟨-, -, -, hfires, -⟩ := hfirst
  exact ⟨consistent_nestedTree, hrun, hfires,
    (hsubset [] [.substring "b"] [] [] (List.nil_subset _) (List.nil_subset _)).2 0 (by decide)
      |>.2⟩

end Forest

end PixelUnit
