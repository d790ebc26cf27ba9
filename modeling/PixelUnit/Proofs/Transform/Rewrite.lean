import PixelUnit.Proofs.Sheet.Origins
import PixelUnit.Proofs.Sheet.RoundTrip
import PixelUnit.Proofs.Transform.Replace

/-!
# Rewriting texts

What the transform does to the text of a stylesheet when it replaces values. The text is cut into
parts, among them every declaration, and each declaration is cut before and behind its value as its
tokens were (`Part.IsCut`). The text that comes out has the same parts, but for the values that were
converted (`Part.Becomes`).
-/

namespace PixelUnit

open Sheet

namespace Forest

variable {f g : Forest} {s : Settings} {file : Option String}

/-- The value that a declaration gets, if that is a new one. -/
def newValue (f : Forest) (s : Settings) (file : Option String) (i : NodeId)
    (prop value : String) : Option String :=
  if f.gateOf s i prop value file = none ∧ s.convert value ≠ value then some (s.convert value)
  else none

theorem newValue_ne (f : Forest) (s : Settings) (file : Option String) (i : NodeId)
    (prop value : String) : f.newValue s file i prop value ≠ some value := by
  unfold newValue
  split
  · next h => exact fun heq => h.2 (Option.some.inj heq)
  · exact nofun

theorem newContent_newValue (i : NodeId) (c : Content) :
    Tree.newContent (f.newValue s file i) c = f.convertedContent s file i c := by
  cases c with
  | declaration prop value important =>
    rw [Tree.newContent, convertedContent, newValue]
    by_cases hgate : f.gateOf s i prop value file = none <;>
      by_cases hvalue : s.convert value = value <;> simp [hgate, hvalue]
  | root | rule | atRule | comment => rfl

/-! ## The tree -/

mutual

theorem Holds.plain : ∀ {t : Tree} {p : Option NodeId} {i : Nat}, f.Holds p i t →
    f.plain.Holds p i t
  | .node content raws ts, p, i, hf => by
    refine ⟨?_, HoldsAll.plain hf.2⟩
    rw [get?_plain, hf.1]
    rfl

theorem HoldsAll.plain : ∀ {ts : List Tree} {q i : Nat}, f.HoldsAll q i ts →
    f.plain.HoldsAll q i ts
  | [], _, _, _ => trivial
  | _ :: _, _, _, hf => ⟨Holds.plain hf.1, HoldsAll.plain hf.2⟩

end

theorem size_convertedIn (f : Forest) (s : Settings) (file : Option String)
    (done : List NodeId) : (f.convertedIn s file done).size = f.size :=
  Array.size_mapIdx

theorem contentOf_ofTree_zero (tree : Tree) : (ofTree tree).2.contentOf 0 = some tree.content := by
  obtain ⟨-, -, hholds⟩ := ofTree_holds tree
  cases tree with
  | node content raws ts => exact contentOf_of_get? hholds.1

/-- The forest of a tree whose declarations are converted holds the tree with its new values. -/
theorem holds_convertedIn {tree : Tree} (hall : tree.All Tree.Branches)
    (hroot : tree.content = .root file) :
    ((ofTree tree).2.convertedIn s file (((ofTree tree).2.visitsOf 0).map Prod.fst)).Holds none 0
      (tree.mapValues ((ofTree tree).2.newValue s file) 0) := by
  obtain ⟨-, -, hholds⟩ := ofTree_holds tree
  have hcontent := contentOf_ofTree_zero tree
  rw [hroot] at hcontent
  refine hholds.plain.mapValues fun j _ hj => ?_
  rw [get?_convertedIn, get?_plain, Option.map_map]
  refine Option.map_congr fun t ht => ?_
  have hvalue : (if j ∈ ((ofTree tree).2.visitsOf 0).map Prod.fst then
      (ofTree tree).2.convertedContent s file j t.content else t.content) =
      Tree.newContent ((ofTree tree).2.newValue s file j) t.content := by
    rw [newContent_newValue]
    rcases Nat.eq_zero_or_pos j with rfl | hpos
    · -- the root is not visited, but it is no declaration either
      have ht' : t.content = .root file :=
        Option.some.inj ((contentOf_of_get? ht).symm.trans hcontent)
      rw [ht']
      exact ite_self _
    · rw [if_pos]
      exact ((consistent_ofTree hall).mem_visitsOf_iff 0 j).2 (hholds.isBelow j hpos hj)
  rw [hvalue]
  rfl

/-- A tree that is transformed gets new values and stays the same otherwise. -/
theorem transformTree_of_replaces {tree : Tree} (hall : tree.All Tree.Branches)
    (hroot : tree.content = .root file) (hs : s.replaces = true) :
    ∃ count log, s.transformTree tree =
      .ok ⟨tree.mapValues ((ofTree tree).2.newValue s file) 0, count, log⟩ := by
  obtain ⟨hfirst, hsize, -⟩ := ofTree_holds tree
  have hpos : 0 < (ofTree tree).2.size := by
    rw [hsize]
    exact tree.size_pos
  obtain ⟨count, log, g, hrun, -, hplain, -⟩ := (consistent_ofTree hall).transform_apply hs hpos
  rw [fileOf_eq ((contentOf_ofTree_zero tree).trans (congrArg some hroot))] at hplain
  have hview : g.view 0 = tree.mapValues ((ofTree tree).2.newValue s file) 0 := by
    have hnew := holds_convertedIn (s := s) hall hroot
    rw [← hplain] at hnew
    unfold view
    rw [← viewTo_plain, hnew.viewTo_eq]
    rw [Tree.size_mapValues, ← size_plain, hplain, size_convertedIn, hsize]
    exact Nat.le_succ _
  refine ⟨count, log, ?_⟩
  rw [← hfirst] at hrun
  unfold Settings.transformTree
  rw [← hview]
  dsimp only
  rw [show (transform s (ofTree tree).1).run (ofTree tree).2 = .ok (count, log) g from hrun]
  dsimp only
  rw [hfirst]

end Forest

/-! ## The text -/

namespace Sheet

namespace Tree.Part

/-- A declaration among the parts is a run of tokens, and it is cut before and behind its value as
these are: the value is what stands between the white space behind the colon and the mark of
importance, or the white space behind the value if there is no mark. -/
def IsCut (tokens : List Token) : Part → Prop
  | .other _ => True
  | .declaration _ prop value front written back =>
    ∃ (before : String) (statement : List Token) (d : DeclarationCut statement) (semicolon : Bool),
      statement <:+: tokens ∧ prop = rawText d.prop ∧ value = d.clean ∧
        front = before ++ rawText d.prop ++ d.between ∧ written = d.written ∧
        back = d.behind ++ if semicolon then ";" else ""

/-- A part of the text that comes out: a declaration that no gate keeps as it is, and whose value
has something to convert, has its converted value in the place of the old one. -/
def Becomes (f : Forest) (s : Settings) (file : Option String) : Part → String → Prop
  | .other text, out => out = text
  | .declaration i prop value front written back, out =>
    ∃ important gate, f.contentOf i = some (.declaration prop value important) ∧
      (Forest.skippedBy s i prop value file).run f = .ok gate f ∧
      out = front ++ (if gate = none ∧ s.convert value ≠ value then s.convert value else written) ++
        back

end Tree.Part

/-- The declarations of a tree that was read are cut as their tokens were. -/
theorem Tree.isCut_of_mem_parts {tokens : List Token} {t : Tree}
    (h : t.All (Tree.FromTokens tokens)) {i : Nat} {semicolon : Bool} :
    ∀ p ∈ t.parts semicolon i, p.IsCut tokens
  | .other _, _ => trivial
  | .declaration j prop value front written back, hp => by
    obtain ⟨raws, important, ts, semicolon', hfrom, rfl, rfl, rfl⟩ := exists_of_mem_parts h hp
    obtain ⟨before, statement, d, hinfix, hcontent, rfl⟩ :=
      hfrom.exists_cut prop value important rfl
    rw [DeclarationCut.content, Content.declaration.injEq] at hcontent
    obtain ⟨rfl, rfl, rfl⟩ := hcontent
    exact ⟨before, statement, d, semicolon', hinfix, rfl, rfl, d.valueFront_raws before,
      d.writtenValue_raws before, d.valueEnd_raws before semicolon'⟩

/-- What the new values make of the parts. -/
theorem Tree.Part.becomes_replaced {f : Forest} {s : Settings} {file : Option String}
    (hf : f.Consistent) : ∀ p : Tree.Part,
    (∀ j prop value front written back, p = .declaration j prop value front written back →
      ∃ important, f.contentOf j = some (.declaration prop value important)) →
    p.Becomes f s file (p.replaced (f.newValue s file))
  | .other _, _ => rfl
  | .declaration j prop value front written back, hp => by
    obtain ⟨important, hcontent⟩ := hp j prop value front written back rfl
    refine ⟨important, f.gateOf s j prop value file, hcontent,
      Forest.skippedBy_apply (hf.listed j), ?_⟩
    rw [replaced, Forest.newValue]
    split <;> rfl

end Sheet

/-- What comes out of a sheet that can be read is the text of its tree with new values. -/
theorem transformText_eq [Regex.CharacterNames] {css : String} {file : Option String} {tree : Tree}
    {base s : Settings}
    {overrides : Settings.Entries} (htree : (SourceReading.ofSource css file).tree = .ok tree)
    (hs : base.merge overrides = .ok s) (hreplaces : s.replaces = true) :
    transformText css file base overrides =
      .ok ((tree.mapValues ((Forest.ofTree tree).2.newValue s file) 0).text false) := by
  obtain ⟨-, -, hresult, -⟩ := SourceReading.tokens_of_tree htree
  obtain ⟨hfrom, hroot⟩ := Reading.all_fromTokens hresult
  have hbranches : tree.All Tree.Branches := hfrom.mono fun _ _ _ h => h.showsAll.branches
  obtain ⟨count, log, hrun⟩ := Forest.transformTree_of_replaces hbranches hroot hreplaces
  unfold transformText
  rw [htree, hs]
  show ((s.transformTree tree).mapError TransformError.edit >>= fun done =>
    pure (done.tree.text false)) = _
  rw [hrun]
  rfl

/-- The text of a sheet that is read without an open block or address, transformed by settings that
replace values. The parts of the source are the declarations of its tree, in order, and what is
between them; each declaration is cut as its tokens were; what comes out are the same parts but for
the values that were converted. -/
theorem transformText_of_replaces [Regex.CharacterNames] {css : String} {file : Option String}
    {tree : Tree}
    {base s : Settings} {overrides : Settings.Entries}
    (htree : (SourceReading.ofSource css file).tree = .ok tree)
    (hfaults : ∀ fault ∈ (SourceReading.ofSource css file).faults,
      fault.cause ≠ .unclosedBlock ∧ fault.cause ≠ .unclosedUrl)
    (hs : base.merge overrides = .ok s) (hreplaces : s.replaces = true) :
    ∃ (parts : List Tree.Part) (outs : List String),
      String.join (parts.map Tree.Part.source) = css ∧
      parts.filterMap Tree.Part.node? =
        (List.range (Forest.ofTree tree).2.size).filter (Forest.ofTree tree).2.isDeclaration ∧
      (∀ p ∈ parts, p.IsCut (scanSource css).tokens) ∧
      List.Forall₂ (Tree.Part.Becomes (Forest.ofTree tree).2 s file) parts outs ∧
      transformText css file base overrides = .ok (String.join outs) := by
  obtain ⟨-, hsource, hresult, hsub⟩ := SourceReading.tokens_of_tree htree
  have hlexical := SourceReading.lexical_tokens htree fun f hf => (hfaults f hf).2
  have htext := Reading.text_of_closed hsource hlexical hresult fun f hf => (hfaults f (hsub hf)).1
  obtain ⟨hfrom, -⟩ := Reading.all_fromTokens hresult
  have hout := transformText_eq htree hs hreplaces
  have hkeeps : tree.All Tree.KeepsValue := hfrom.mono fun _ _ _ h => h.keepsValue
  have hshows : tree.All Tree.ShowsAll := hfrom.mono fun _ _ _ h => h.showsAll
  have hbranches : tree.All Tree.Branches := hshows.mono fun _ _ _ h => h.branches
  obtain ⟨-, hsize, hholds⟩ := Forest.ofTree_holds tree
  have hconsistent := Forest.consistent_ofTree hbranches
  generalize (Forest.ofTree tree).2 = f at *
  refine ⟨tree.parts false 0, (tree.parts false 0).map (Tree.Part.replaced (f.newValue s file)),
    ?_, ?_, Tree.isCut_of_mem_parts hfrom, ?_, ?_⟩
  · rw [Tree.join_source_parts hkeeps, htext]
  · rw [hholds.filterMap_parts false hshows, hsize, List.range_eq_range']
  · refine List.forall₂_map_right_iff.2 (List.forall₂_same.2 fun p hp => ?_)
    refine Tree.Part.becomes_replaced hconsistent p fun j prop value front written back heq => ?_
    rw [heq] at hp
    exact hholds.contentOf_of_mem_parts hp
  · rw [hout, Tree.text_mapValues (f.newValue_ne s file) tree 0 false hkeeps]

/-- A sheet with a value between comments and a mark of importance, one that a comment keeps as it
is, and one in a rule inside an at-rule. -/
def mixedSheet : String :=
  "a\x7btop: /*!*/ 1px /**/ ! IMPORTANT ;left:2px;/*keep*/ " ++
    "@media x\x7b b \x7b margin:0 3px\x7d\x7d\x7d"

def mixedSheetConverted : String :=
  "a\x7btop: calc(1*var(--u)) ! IMPORTANT ;left:2px;/*keep*/ " ++
    "@media x\x7b b \x7b margin:0 calc(3*var(--u))\x7d\x7d\x7d"

attribute [local instance] Regex.CharacterNames.none

theorem transformText_mixedSheet :
    ∃ tree, (SourceReading.ofSource mixedSheet (some "a.css")).tree = .ok tree ∧
      (∀ fault ∈ (SourceReading.ofSource mixedSheet (some "a.css")).faults,
        fault.cause ≠ .unclosedBlock ∧ fault.cause ≠ .unclosedUrl) ∧
      Forest.nestedSettings.merge [("replace", .bool true)] = .ok Forest.nestedSettings ∧
      Forest.nestedSettings.replaces = true ∧
      ∃ (parts : List Tree.Part) (outs : List String),
        String.join (parts.map Tree.Part.source) = mixedSheet ∧
        List.Forall₂ (Tree.Part.Becomes (Forest.ofTree tree).2 Forest.nestedSettings (some "a.css"))
          parts outs ∧
        String.join outs = mixedSheetConverted := by
  have hfaults : ∀ fault ∈ (SourceReading.ofSource mixedSheet (some "a.css")).faults,
      fault.cause ≠ .unclosedBlock ∧ fault.cause ≠ .unclosedUrl := by
    decide +kernel
  have hok : (SourceReading.ofSource mixedSheet (some "a.css")).tree.isOk = true := by
    decide +kernel
  have hout : (match transformText mixedSheet (some "a.css") Forest.nestedSettings
      [("replace", .bool true)] with
      | .ok text => text
      | .error _ => "") = mixedSheetConverted := by
    decide +kernel
  cases htree : (SourceReading.ofSource mixedSheet (some "a.css")).tree with
  | error e =>
    rw [htree] at hok
    cases hok
  | ok tree =>
    obtain ⟨parts, outs, hsource, -, -, hbecomes, htext⟩ :=
      @transformText_of_replaces _ _ _ _ _ _ [("replace", .bool true)] htree hfaults rfl rfl
    rw [htext] at hout
    exact ⟨tree, rfl, hfaults, rfl, rfl, parts, outs, hsource, hbecomes, hout⟩

end PixelUnit
