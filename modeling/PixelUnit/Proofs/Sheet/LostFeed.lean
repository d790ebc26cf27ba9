import PixelUnit.Proofs.Sheet.BrokenOff
import PixelUnit.Proofs.Sheet.Importance

/-!
# The line feed that is lost

The pattern for the mark of importance also matches in front of a line feed at the end of a value,
and that line feed is kept nowhere. A value ends in a line feed that is not escaped only where an
address has no end, and such an address is the last token (`EndsOpen`). If the declaration around it
is marked as important, all of the sheet but the line feed has been written once that declaration is
added (`Builder.Step.losesLast`); no line feed is lost before (`Builder.Step.breaksOff`).

`SourceReading.text_of_recovery` says of every sheet that is read which it is: the sheet is written
back as it was, or without the line feed at its end. Either way there is a closing brace behind it
for each block without an end.
-/

namespace PixelUnit.Sheet

/-! ## The last token -/

/-- An address without an end that is noted by a scan is its last token. -/
theorem Scanner.last_of_unclosedUrl (s : Scanner) (hfailure : s.scan.failure = none)
    (hurl : ∃ f ∈ s.scan.final.faults, f.cause = .unclosedUrl) :
    (∃ f ∈ s.faults, f.cause = .unclosedUrl) ∨
      ∃ t, s.scan.tokens.getLast? = some t ∧ t.kind = .url := by
  induction s using scan.induct with
  | case1 s hrest =>
    rw [scan_nil hrest] at hurl
    exact Or.inl hurl
  | case2 s hrest e s' hs =>
    rw [scan_error hrest hs] at hfailure
    cases hfailure
  | case3 s hrest t s' hs hlt ih =>
    rw [scan_ok hrest hs] at hfailure hurl ⊢
    obtain ⟨c, r, l, -, hread, rfl, rfl⟩ := consume_ok hrest hs
    rcases ih hfailure hurl with ⟨f, hf, hcause⟩ | ⟨u, hu, hkind⟩
    · rcases List.mem_append.1 hf with hf | hf
      · exact Or.inl ⟨f, hf, hcause⟩
      · -- the fault of this lexeme, which leaves nothing to read
        obtain ⟨e, he, rfl⟩ := Option.map_eq_some_iff.1 (Option.mem_toList.1 hf)
        obtain rfl : e = .unclosedUrl := hcause
        obtain ⟨hkind, hrest⟩ := Lexeme.last_of_unclosedUrl hread he
        have hnil : (s.past l).scan.tokens = [] := by
          rw [scan_nil hrest]
        exact Or.inr ⟨_, by rw [hnil]; rfl, hkind⟩
    · exact Or.inr ⟨u, by rw [List.getLast?_cons, hu, Option.getD_some], hkind⟩

/-- The last token is an address that ends in a line feed. -/
def EndsOpen (ts : List Token) : Prop :=
  ∃ t, ts.getLast? = some t ∧ t.kind = .url ∧ t.raw.toList.getLast? = some '\n'

/-- If an address with a line feed is the last of some tokens, it is the last of the tokens at their
end. -/
theorem EndsOpen.mono {ts us : List Token} (h : EndsOpen us) (hsuffix : ts <:+ us)
    (hne : ts ≠ []) : EndsOpen ts := by
  obtain ⟨t, ht, hopen⟩ := h
  obtain ⟨front, rfl⟩ := hsuffix
  rw [List.getLast?_append_of_ne_nil _ hne] at ht
  exact ⟨t, ht, hopen⟩

theorem EndsOpen.ne_nil {ts : List Token} (h : EndsOpen ts) : ts ≠ [] := by
  rintro rfl
  obtain ⟨t, ht, -⟩ := h
  cases ht

theorem EndsOpen.exists_mem {ts : List Token} (h : EndsOpen ts) : ∃ t ∈ ts, t.kind = .url := by
  obtain ⟨t, ht, hkind, -⟩ := h
  exact ⟨t, List.mem_of_getLast? ht, hkind⟩

theorem EndsOpen.kind {t : Token} (h : EndsOpen [t]) : t.kind = .url := by
  obtain ⟨u, hu, hkind⟩ := h.exists_mem
  rwa [← List.mem_singleton.1 hu]

/-- The line feed at the end of the address is the last character. -/
theorem EndsOpen.feed {ts : List Token} (h : EndsOpen ts) :
    (rawText ts).toList.getLast? = some '\n' := by
  obtain ⟨t, ht, -, hfeed⟩ := h
  obtain ⟨front, rfl⟩ := List.getLast?_eq_some_iff.1 ht
  rw [rawText_append, rawText_cons, rawText_nil, String.append_empty, String.toList_append,
    List.getLast?_append, hfeed, Option.some_or]

/-- Where a sheet loses its line feed, its last token ends in it. -/
theorem LosesFeed.endsOpen {source : String} {tree : Tree} (h : LosesFeed source tree)
    (hfailure : (scanSource source).failure = none) : EndsOpen (scanSource source).tokens := by
  have hreads := reads_scanSource hfailure
  rcases Scanner.last_of_unclosedUrl (.ofSource source.toList) hfailure h.openUrl with
    ⟨f, hf, -⟩ | ⟨t, ht, hkind⟩
  · cases hf
  refine ⟨t, ht, hkind, ?_⟩
  have hne := hreads.raw_ne_nil (List.mem_of_getLast? ht)
  have hfeed := h.feed
  obtain ⟨front, htokens⟩ : ∃ front, (scanSource source).tokens = front ++ [t] :=
    List.getLast?_eq_some_iff.1 ht
  rwa [← hreads.rawText_eq, htokens, rawText_append, rawText_cons, rawText_nil,
    String.append_empty, String.toList_append, List.getLast?_append_of_ne_nil _ hne] at hfeed

/-! ## Declarations -/

namespace DeclarationCut

variable {ts : List Token} (d : DeclarationCut ts)

/-- The line feed behind a mark of importance is no part of the value nor of the mark. -/
theorem rawText_value_of_feed (hmark : d.mark.isSome = true)
    (hfeed : (rawText d.value).toList.getLast? = some '\n') :
    rawText d.value = d.written ++ d.markText.getD "" ++ "\n" := by
  obtain ⟨m, hm⟩ := Option.isSome_iff_exists.1 hmark
  obtain ⟨front, hfront⟩ := List.getLast?_eq_some_iff.1 hfeed
  have happ : m.1 ++ m.2 = front := by
    have hsplit : splitImportant (rawText d.value).toList = some (m.1, m.2) := hm
    rw [splitImportant_append hsplit, hfront, dropLineFeed_concat]
  rw [← String.toList_inj, hfront, ← happ]
  simp [written, markText, hm]

/-- A mark of importance ends in a letter. -/
theorem getLast?_markText (hmark : d.mark.isSome = true) :
    ∃ c, (d.markText.getD "").toList.getLast? = some c ∧ c ≠ '\n' := by
  obtain ⟨m, hm⟩ := Option.isSome_iff_exists.1 hmark
  have hsplit : splitImportant (rawText d.value).toList = some (m.1, m.2) := hm
  obtain ⟨blanks, core, hmark, -, hcore⟩ := exists_isMark hsplit
  obtain ⟨x, c, rfl, hc⟩ := hcore.eq_concat
  refine ⟨c, ?_, ?_⟩
  · rw [markText, hm, Option.map_some, Option.getD_some, String.toList_ofList, hmark]
    simp
  · rintro rfl
    cases hc

/-- The value of a declaration takes the address at the end. -/
theorem value_of_endsOpen (h : EndsOpen ts) : d.trail = [] ∧ EndsOpen d.value := by
  have hspacing {t : Token} (ht : t ∈ d.gap ++ (d.lead ++ d.trail)) : t.kind ≠ .url := by
    intro hkind
    have hspacing := d.spacing t ht
    simp [Token.isSpacing, hkind] at hspacing
  have htrail : d.trail = [] := by
    by_contra hne
    have hsuffix : d.trail <:+ ts :=
      ⟨d.prop ++ (d.gap ++ d.colon :: (d.lead ++ d.value)), by simpa using d.tokens_eq.symm⟩
    obtain ⟨t, ht, hkind⟩ := (h.mono hsuffix hne).exists_mem
    exact hspacing (by simp [ht]) hkind
  have htokens : d.prop ++ (d.gap ++ d.colon :: (d.lead ++ d.value)) = ts := by
    simpa [htrail] using d.tokens_eq.symm
  have hvalue : d.value ≠ [] := by
    intro hnil
    have hsuffix : d.colon :: d.lead <:+ ts := ⟨d.prop ++ d.gap, by simpa [hnil] using htokens⟩
    obtain ⟨t, ht, hkind⟩ := (h.mono hsuffix (List.cons_ne_nil _ _)).exists_mem
    rcases List.mem_cons.1 ht with rfl | ht
    · exact absurd (d.colon_kind.symm.trans hkind) (by decide)
    · exact hspacing (by simp [ht]) hkind
  have hsuffix : d.value <:+ ts :=
    ⟨d.prop ++ (d.gap ++ d.colon :: d.lead), by simpa using htokens⟩
  exact ⟨htrail, h.mono hsuffix hvalue⟩

end DeclarationCut

/-! ## The last step -/

namespace Builder

/-- All of a source but the line feed at its end has been written, and the text before that ends in
another character. -/
def WritesFront (source : String) (b : Builder) : Prop :=
  ∃ kept, source = kept ++ "\n" ∧ kept.toList.getLast? ≠ some '\n' ∧ Writes kept b []

/-- A last statement that is written without a line feed leaves all of the source but this line
feed written. -/
theorem Writes.addLast {source : String} {b : Builder} {ts taken : List Token}
    (h : Writes source b ts) (hsettled : b.frame.Settled) {t : Tree} (ht : t.isComment = false)
    {semicolon : Bool} (htext : t.text semicolon ++ "\n" = b.pending ++ rawText ts)
    (hlast : ∃ c, (t.text semicolon).toList.getLast? = some c ∧ c ≠ '\n') :
    WritesFront source ((b.setSemicolon semicolon).add taken t) := by
  refine ⟨outerText b.outer ++ b.frame.written ++ t.text semicolon, ?_, ?_, ?_,
    h.stacked.of_content_eq rfl, Or.inr nofun, ⟨nofun⟩, h.noted⟩
  · rw [← h.text]
    simp only [String.append_assoc, htext]
  · obtain ⟨c, hc, hne⟩ := hlast
    rw [String.toList_append, List.getLast?_append, hc, Option.some_or]
    exact fun h => hne (Option.some.inj h)
  · show outerText b.outer ++ ((b.frame.setSemicolon semicolon).add t).written ++ "" ++ "" = _
    rw [hsettled.written_addLine ht]
    simp only [String.append_assoc, String.append_empty]

/-- Where nothing is left behind a statement, the address at the end belongs to it. -/
theorem stop_eq_none_of_endsOpen {p : Prelude} {ts us : List Token} (hts : EndsOpen ts)
    (hsuffix : us <:+ ts) (hp : p = Prelude.read [] us) (hrest : p.rest = []) : p.stop = none := by
  subst hp
  have htaken := Prelude.taken_append_rest [] us
  rw [hrest, List.append_nil, Prelude.taken] at htaken
  have hlast {u : Token} (hu : (Prelude.read [] us).stop = some u) : u.kind = .url := by
    rw [hu, Option.toList_some] at htaken
    have hlast : [u] <:+ ts := (List.suffix_append _ _).trans (htaken ▸ hsuffix)
    exact (hts.mono hlast (List.cons_ne_nil u [])).kind
  rcases Prelude.stop_cases [] us with ⟨u, hu, hopen⟩ | ⟨u, hu, hsemicolon⟩ | ⟨hu, -⟩
  · exact absurd (hopen.symm.trans (hlast hu)) (by decide)
  · exact absurd (hsemicolon.symm.trans (hlast hu)) (by decide)
  · exact hu

/-- If the last node is a declaration marked as important, all of the source but the line feed at
its end has been written. -/
def LosesLast (source : String) (b : Builder) : Prop :=
  ∃ t us, b.frame.children = t :: us ∧ (t.endsImportant = true → WritesFront source b)

/-- The step at an address without an end adds the last node. -/
theorem Step.losesLast {source : String} {b b' : Builder} {ts : List Token}
    (hstep : Step b ts b' []) (h : Writes source b ts) (hopen : EndsOpen ts) :
    b'.LosesLast source := by
  generalize hnil : ([] : List Token) = ts' at hstep
  -- A token without an end is none of the single tokens, and it opens no block, since it ends the
  -- statement only with the file.
  cases hstep with
  | space ht | semicolon ht | close ht | comment ht =>
    subst hnil
    exact absurd (ht.symm.trans hopen.kind) (by decide)
  | @atBlock t r _ _ _ _ hp hblock =>
    have hstop := stop_eq_none_of_endsOpen hopen
      ((List.dropWhile_suffix _).trans (List.suffix_cons t r)) hp hnil.symm
    rw [Prelude.opensBlock, hstop] at hblock
    cases hblock
  | rule _ hp hblock =>
    have hstop := stop_eq_none_of_endsOpen hopen List.suffix_rfl hp hnil.symm
    rw [Prelude.opensBlock, hstop] at hblock
    cases hblock
  | atLine => exact ⟨_, _, rfl, fun himportant => absurd himportant Bool.false_ne_true⟩
  | @declaration t r p ht hp hline d hd =>
    refine ⟨_, _, rfl, fun hmark => ?_⟩
    have hstop := stop_eq_none_of_endsOpen hopen List.suffix_rfl hp hnil.symm
    have hsettled := h.settled_of_cons ht.2.2.2.1
    have htokens : p.tokens = t :: r := by
      have htaken := Prelude.taken_append_rest [] (t :: r)
      rwa [← hp, ← hnil, List.append_nil, Prelude.taken, hstop, Option.toList_none,
        List.append_nil] at htaken
    -- What follows the value is empty, so the value is the last to be written.
    obtain ⟨htrail, hvalue⟩ := d.value_of_endsOpen (htokens ▸ hopen)
    have hnode : (Tree.node d.content (d.raws b.pending) []).text p.endsInSemicolon =
        b.pending ++ rawText d.prop ++ d.between ++ d.written ++ d.markText.getD "" := by
      rw [d.text_node_eq, htrail, Prelude.endsInSemicolon, hstop]
      simp [String.append_assoc]
    refine (h.note p).addLast hsettled rfl ?_ ?_
    · show _ = b.pending ++ rawText (t :: r)
      rw [← htokens, hnode, d.rawText_eq, d.rawText_value_of_feed hmark hvalue.feed, htrail]
      simp [String.append_assoc]
    · obtain ⟨c, hc, hne⟩ := d.getLast?_markText hmark
      exact ⟨c, by rw [hnode, String.toList_append, List.getLast?_append, hc, Option.some_or], hne⟩

/-- What a reading keeps up to an address without an end that ends in a line feed. -/
def BreaksOff (source : String) (b : Builder) (ts : List Token) : Prop :=
  Writes source b ts ∧ FeedsBefore ts ∧ EndsOpen ts ∨ ts = [] ∧ b.LosesLast source

/-- What a reading keeps up to the end is kept by a step. -/
theorem Step.breaksOff {source : String} {b b' : Builder} {ts ts' : List Token}
    (hstep : Step b ts b' ts') (h : b.BreaksOff source ts) : b'.BreaksOff source ts' := by
  rcases h with ⟨hwrites, hfeeds, hopen⟩ | ⟨rfl, -⟩
  · by_cases hnil : ts' = []
    · subst hnil
      exact Or.inr ⟨rfl, hstep.losesLast hwrites hopen⟩
    · -- a line feed is lost at the end only
      have hwrites' := (hstep.writes_or_endsImportant hwrites hfeeds).resolve_right
        fun hlast => hnil hlast.1
      exact Or.inl ⟨hwrites', hfeeds.mono hstep.suffix, hopen.mono hstep.suffix hnil⟩
  · cases hstep

end Builder

/-! ## Readings -/

/-- A sheet that ends in an address without an end, in a declaration marked as important, is written
back without the line feed at its end. -/
theorem Reading.text_of_endsImportant {source : String} {ts : List Token} {file : Option String}
    {tree : Tree} (hsource : rawText ts = source) (hts : Marked ts) (hfeeds : FeedsBefore ts)
    (hopen : EndsOpen ts) (h : (ofTokens ts file).result = .ok tree)
    (himportant : tree.endsImportant = true) :
    ∃ kept, source = kept ++ "\n" ∧ kept.toList.getLast? ≠ some '\n' ∧ tree.text false =
      kept ++ closers ((ofTokens ts file).faults.countP (·.cause = .unclosedBlock)) := by
  have hstart := writes_start file hsource hts
  obtain ⟨b, ts', pos, hb, hend, hrun⟩ := Builder.run_invariant Builder.Step.breaksOff _ _
    (Or.inl ⟨hstart, hfeeds, hopen⟩) h
  rcases hb with ⟨hwrites, -, hopen⟩ | ⟨rfl, t, us, hchildren, hlost⟩
  · obtain ⟨t, r, rfl⟩ := List.exists_cons_of_ne_nil hopen.ne_nil
    exact absurd (hend t rfl) (hwrites.marked.ne_ending t List.mem_cons_self)
  · have htree : Builder.closeAll b.frame b.pending b.outer = tree := by
      rw [ofTokens, hrun] at h
      exact Except.ok.inj h
    rw [← htree, Builder.endsImportant_closeAll _ _ hchildren] at himportant
    obtain ⟨kept, hkept, hlast, hwrites⟩ := hlost himportant
    exact ⟨kept, hkept, hlast, text_of_writes hwrites hend hrun h⟩

/-! ## Sources -/

namespace SourceReading

variable {source : String} {file : Option String} {tree : Tree}

/-- As many blocks are noted to have no end as there are. -/
theorem countP_unclosedBlock (h : (ofSource source file).tree = .ok tree) :
    (ofSource source file).faults.countP (·.cause = .unclosedBlock) = openBlocks source := by
  obtain ⟨hfailure, -, hresult, -⟩ := tokens_of_tree h
  rw [openBlocks, ← Reading.countP_eq (marked_tokens h) hresult none]
  simp only [faults, ofSource, hfailure, List.countP_append, countP_scanSource,
    Nat.zero_add]

/-- Where a line feed is lost, just the one is, and all blocks have ends in what is written. -/
theorem text_of_losesFeed (h : (ofSource source file).tree = .ok tree)
    (hloses : LosesFeed source tree) : ∃ kept, source = kept ++ "\n" ∧
      kept.toList.getLast? ≠ some '\n' ∧ tree.text false = kept ++ closers (openBlocks source) := by
  obtain ⟨hfailure, hsource, hresult, -⟩ := tokens_of_tree h
  rw [openBlocks, ← Reading.countP_eq (marked_tokens h) hresult none]
  exact Reading.text_of_endsImportant hsource (marked_tokens h)
    (reads_scanSource hfailure).feedsBefore (hloses.endsOpen hfailure) hresult hloses.important

/-- A sheet that is read is written back as it was, with a closing brace behind it for each block
that is noted to have no end and nothing else changed, exactly if it loses no line feed; otherwise
the line feed at its end is missing, and nothing else. -/
theorem text_of_recovery (h : (ofSource source file).tree = .ok tree) :
    (tree.text false = source ++
        closers ((ofSource source file).faults.countP (·.cause = .unclosedBlock)) ↔
      ¬LosesFeed source tree) ∧
    (LosesFeed source tree → ∃ kept, source = kept ++ "\n" ∧ tree.text false = kept ++
      closers ((ofSource source file).faults.countP (·.cause = .unclosedBlock))) := by
  rw [countP_unclosedBlock h]
  have hlost (hloses : LosesFeed source tree) : ∃ kept, source = kept ++ "\n" ∧
      tree.text false = kept ++ closers (openBlocks source) := by
    obtain ⟨kept, hkept, -, htext⟩ := text_of_losesFeed h hloses
    exact ⟨kept, hkept, htext⟩
  refine ⟨⟨fun htext hloses => ?_, text_eq_append_closers h⟩, hlost⟩
  obtain ⟨kept, hkept, htext'⟩ := hlost hloses
  have hlen := congrArg String.length (htext.symm.trans htext')
  rw [hkept, String.length_append, String.length_append, String.length_append] at hlen
  exact absurd hlen (by simp)

/-- A sheet that breaks off behind a mark of importance, in an address in two blocks. -/
def cutOffSheet : String :=
  "@m\x7ba\x7bb:url(c !important"

/-- This sheet gets its line feed back, with the braces that were missing. -/
theorem text_cutOffSheet : ∃ tree, (ofSource cutOffSheet none).tree = .ok tree ∧
    tree.endsImportant = true ∧ tree.text false = cutOffSheet ++ "\x7d\x7d" := by
  obtain ⟨tree, htree, himportant⟩ : ∃ tree, (ofSource cutOffSheet none).tree = .ok tree ∧
      tree.endsImportant = true := exists_of_tree_map (by decide +kernel)
  have hcount : (ofSource cutOffSheet none).faults.countP (·.cause = .unclosedBlock) = 2 := by
    decide +kernel
  have hkept : ¬LosesFeed cutOffSheet tree := fun hlost => absurd hlost.feed (by decide +kernel)
  have htext := (text_of_recovery htree).1.2 hkept
  rw [hcount] at htext
  exact ⟨tree, htree, himportant, htext⟩

/-- A sheet with a line feed behind a mark of importance, in an address without an end. -/
def lastLineSheet : String :=
  "a:url(x!important\n"

/-- This sheet loses its line feed. -/
theorem not_kept_lastLineSheet : ∃ tree, (ofSource lastLineSheet none).tree = .ok tree ∧
    (ofSource lastLineSheet none).faults.map Fault.cause = [.unclosedUrl] ∧
    tree.text false ≠ lastLineSheet ++
      closers ((ofSource lastLineSheet none).faults.countP (·.cause = .unclosedBlock)) := by
  obtain ⟨tree, htree, htext⟩ : ∃ tree, (ofSource lastLineSheet none).tree = .ok tree ∧
      tree.text false = "a:url(x!important" := exists_of_tree_map (by decide +kernel)
  refine ⟨tree, htree, by decide +kernel, ?_⟩
  rw [htext]
  decide +kernel

end SourceReading

end PixelUnit.Sheet
