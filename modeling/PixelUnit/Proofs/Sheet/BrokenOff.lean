import PixelUnit.Proofs.Sheet.Outline

/-!
# Sheets that break off

An address without an end takes all of its sheet that is left, so it is the last token, and all
tokens before it end as they do in other sheets (`FeedsBefore`). If the declaration around it is
marked as important, the line feed at the end of the sheet is lost (`LosesFeed`). Every other sheet
that is read is written back as it was, with a closing brace for each block without an end
(`SourceReading.text_eq_append_closers`).
-/

namespace PixelUnit.Sheet

/-! ## Addresses without an end -/

/-- An address without an end takes everything. -/
theorem splitUrl_unclosed {cs t u : List Char} {e : Fault.Cause}
    (h : splitUrl cs = (t, u, some e)) : u = [] := by
  fun_induction splitUrl cs generalizing t u with
  | case1 =>
    simp only [Prod.mk.injEq] at h
    exact h.2.1.symm
  | case2 c r t' u' e' hs ih =>
    simp only [Prod.mk.injEq] at h
    obtain ⟨-, rfl, rfl⟩ := h
    exact ih hs
  | case3 => simp at h
  | case4 c r _ _ t' u' e' hs ih =>
    simp only [Prod.mk.injEq] at h
    obtain ⟨-, rfl, rfl⟩ := h
    exact ih hs

/-- An address without an end is the last token. -/
theorem Lexeme.last_of_unclosedUrl {c : Char} {cs : List Char} {l : Lexeme}
    (h : Lexeme.read c cs = .ok l) (hurl : l.fault = some .unclosedUrl) :
    l.kind = .url ∧ l.rest = [] := by
  cases Lexeme.form_of_read h with
  | comment | spacing | string | punctuation | atKeyword | word => cases hurl
  | badString hc hs =>
    cases hurl
    rcases splitString_fault (e := .unclosedUrl) (by rw [hs]) with h | h <;> cases h
  | url hc hs hname hu =>
    cases hurl
    exact ⟨rfl, splitUrl_unclosed hu⟩

/-- A line feed at the end of a token that is no white space is escaped, or stands at the end of
all tokens. -/
def FeedsBefore (ts : List Token) : Prop :=
  ∀ t us, t :: us <:+ ts → t.kind ≠ .spacing →
    t.raw.toList ≠ [] ∧ (FeedEscaped t.raw.toList ∨ us = [])

theorem FeedsBefore.mono {ts us : List Token} (h : FeedsBefore us) (hsuffix : ts <:+ us) :
    FeedsBefore ts :=
  fun t vs hvs => h t vs (hvs.trans hsuffix)

/-- When a text is read, a line feed at the end of a token that is no white space is escaped, or all
has been read by then. -/
theorem Scanner.Reads.feedsBefore {noted : List Fault} {pos : Position} {cs : List Char}
    {ts : List Token} (h : Reads noted pos cs ts) : FeedsBefore ts := by
  induction h with
  | done =>
    intro t us hsuffix
    cases List.eq_nil_of_suffix_nil hsuffix
  | @token pos c cs l ts hread _ hrest ih =>
    intro t us hsuffix hkind
    rcases List.suffix_cons_iff.1 hsuffix with heq | hsuffix
    · obtain ⟨rfl, rfl⟩ := List.cons.inj heq
      rw [String.toList_ofList]
      refine ⟨Lexeme.raw_ne_nil hread, ?_⟩
      by_cases hurl : l.fault = some .unclosedUrl
      · rw [(Lexeme.last_of_unclosedUrl hread hurl).2] at hrest
        cases hrest
        exact Or.inr rfl
      · exact Or.inl (Lexeme.feedEscaped_of_read hread hkind hurl)
    · exact ih t us hsuffix hkind

/-! ## The last node -/

namespace Tree

mutual

/-- The last node of a tree is a declaration that is marked as important. -/
def endsImportant : Tree → Bool
  | node (.declaration _ _ important) _ [] => important
  | node _ _ children => lastImportant children

/-- The last node of some trees is a declaration that is marked as important. -/
def lastImportant : List Tree → Bool
  | [] => false
  | t :: ts => if ts.isEmpty then endsImportant t else lastImportant ts

end

/-- The last one of some trees decides. -/
theorem lastImportant_concat (ts : List Tree) (t : Tree) :
    lastImportant (ts ++ [t]) = t.endsImportant := by
  induction ts with
  | nil => rfl
  | cons u ts ih =>
    rw [List.cons_append, lastImportant, if_neg (by simp), ih]

/-- The last child of a node decides. -/
theorem endsImportant_concat (content : Content) (raws : Raws) (ts : List Tree) (t : Tree) :
    (node content raws (ts ++ [t])).endsImportant = t.endsImportant := by
  have hlast := lastImportant_concat ts t
  cases hts : ts ++ [t] with
  | nil => exact absurd hts (by simp)
  | cons u us =>
    rw [hts] at hlast
    rw [← hlast]
    cases content <;> rfl

end Tree

namespace Builder

/-- The last node of what is open is the one that was added last. -/
theorem endsImportant_closeAll {t : Tree} : ∀ (gs : List Frame) {f : Frame} {ts : List Tree}
    (after : String), f.children = t :: ts → (closeAll f after gs).endsImportant = t.endsImportant
  | [], f, ts, after, h => by
    rw [closeAll, Frame.close, h, List.reverse_cons, Tree.endsImportant_concat]
  | g :: gs, f, ts, after, h => by
    have hclose : (f.close after).endsImportant = t.endsImportant := by
      rw [Frame.close, h, List.reverse_cons, Tree.endsImportant_concat]
    rw [closeAll, endsImportant_closeAll gs (f := g.add (f.close after)) "" rfl, hclose]

end Builder

/-! ## Steps -/

namespace DeclarationCut

variable {ts : List Token}

/-- Both cuts that are made of a statement say the same. -/
theorem content_eq {d d' : DeclarationCut ts} (hd : d.Exact) (hd' : d'.Exact) :
    d'.content = d.content := by
  have h := (d'.declarationOf_eq hd' "").symm.trans (d.declarationOf_eq hd "")
  exact congrArg Prod.fst (Option.some.inj h)

/-- A declaration that loses a line feed is marked as important, and nothing stands behind it. -/
theorem important_of_not_joins {d : DeclarationCut ts} {us : List Token}
    (hfeeds : FeedsBefore (ts ++ us)) (h : ¬d.Joins) : d.mark.isSome = true ∧ us = [] := by
  refine ⟨Option.isSome_iff_ne_none.2 fun hmark => h (d.joins_of_mark hmark), ?_⟩
  rcases List.eq_nil_or_concat' d.value with hvalue | ⟨front, t, hvalue⟩
  · refine absurd (d.joins_of_feedEscaped ?_) h
    rw [hvalue]
    exact feedEscaped_nil
  have hkind := d.value_last t (by rw [hvalue]; simp)
  have hsuffix : t :: (d.trail ++ us) <:+ ts ++ us := by
    refine ⟨d.prop ++ (d.gap ++ d.colon :: (d.lead ++ front)), ?_⟩
    conv_rhs => rw [d.tokens_eq, hvalue]
    simp
  obtain ⟨hne, hfeed | hnil⟩ := hfeeds t _ hsuffix hkind
  · refine absurd (d.joins_of_feedEscaped ?_) h
    rw [hvalue, rawText_append, String.toList_append]
    exact FeedEscaped.append _ (by simpa using hfeed) (by simpa using hne)
  · exact (List.append_eq_nil_iff.1 hnil).2

end DeclarationCut

namespace Builder

/-- All has been read, and the last node is a declaration that is marked as important. -/
def EndsImportant (b : Builder) (ts : List Token) : Prop :=
  ts = [] ∧ ∃ t us, b.frame.children = t :: us ∧ t.endsImportant = true

/-- Every step writes what it reads, but one that ends the sheet with an important declaration. -/
theorem Step.writes_or_endsImportant {source : String} {b b' : Builder} {ts ts' : List Token}
    (hstep : Step b ts b' ts') (h : Writes source b ts) (hfeeds : FeedsBefore ts) :
    Writes source b' ts' ∨ b'.EndsImportant ts' := by
  by_cases hjoins : FrontJoins ts
  · exact Or.inl (hstep.writes h hjoins)
  · right
    unfold FrontJoins at hjoins
    simp only [not_forall] at hjoins
    obtain ⟨t, ht, hstart, d, hd, hnot⟩ := hjoins
    obtain ⟨hending, hspacing, hsemicolon, hclose, hcomment, hat⟩ := hstart
    have hbehind : FeedsBefore ((Prelude.read [] ts).tokens ++
        ((Prelude.read [] ts).stop.toList ++ (Prelude.read [] ts).rest)) := by
      rwa [← List.append_assoc, ← Prelude.taken, Prelude.taken_append_rest]
    obtain ⟨himportant, hrest⟩ := DeclarationCut.important_of_not_joins hbehind hnot
    obtain ⟨hstop, hrest⟩ := List.append_eq_nil_iff.1 hrest
    cases hstep with
    | space hkind => exact absurd hkind (Option.some.inj ht ▸ hspacing)
    | semicolon hkind => exact absurd hkind (Option.some.inj ht ▸ hsemicolon)
    | close hkind => exact absurd hkind (Option.some.inj ht ▸ hclose)
    | comment hkind => exact absurd hkind (Option.some.inj ht ▸ hcomment)
    | atBlock hkind | atLine hkind => exact absurd hkind (Option.some.inj ht ▸ hat)
    | rule _ hp hopen =>
      subst hp
      obtain ⟨u, hu, -⟩ := Prelude.exists_stop_of_opensBlock hopen
      rw [hu] at hstop
      cases hstop
    | @declaration _ _ p _ hp _ d' hd' =>
      subst hp
      refine ⟨hrest, _, _, rfl, ?_⟩
      rw [DeclarationCut.content_eq hd hd']
      exact himportant

end Builder

/-! ## Readings -/

namespace Reading

/-- A sheet whose last node is no important declaration is written back as it was, with a closing
brace more for each block without an end. -/
theorem text_of_not_endsImportant {source : String} {ts : List Token} {file : Option String}
    {tree : Tree} (hsource : rawText ts = source) (hts : Marked ts) (hfeeds : FeedsBefore ts)
    (h : (ofTokens ts file).result = .ok tree) (hlast : tree.endsImportant = false) :
    tree.text false =
      source ++ closers ((ofTokens ts file).faults.countP (·.cause = .unclosedBlock)) := by
  obtain ⟨b, ts', pos, hb, hend, hrun⟩ := Builder.run_invariant
    (P := fun b ts => b.Writes source ts ∧ FeedsBefore ts ∨ b.EndsImportant ts)
    (fun hstep hb => by
      rcases hb with ⟨hwrites, hfeeds⟩ | ⟨rfl, -⟩
      · exact (hstep.writes_or_endsImportant hwrites hfeeds).imp_left
          fun hwrites => ⟨hwrites, hfeeds.mono hstep.suffix⟩
      · cases hstep)
    _ _ (Or.inl ⟨writes_start file hsource hts, hfeeds⟩) h
  rcases hb with ⟨hwrites, -⟩ | ⟨-, t, us, hchildren, himportant⟩
  · exact text_of_writes hwrites hend hrun h
  · rw [ofTokens, hrun] at h
    cases h
    rw [Builder.endsImportant_closeAll _ _ hchildren, himportant] at hlast
    cases hlast

/-- As many blocks are noted to have no end, whatever name the sheet goes by. -/
theorem countP_eq {ts : List Token} (hts : Marked ts) {file : Option String} {tree : Tree}
    (h : (ofTokens ts file).result = .ok tree) (other : Option String) :
    (ofTokens ts file).faults.countP (·.cause = .unclosedBlock) =
      (ofTokens ts other).faults.countP (·.cause = .unclosedBlock) := by
  have hrun (name : Option String) :
      (ofTokens ts name).outcome = Outline.run 0 (ts.map Token.kind) :=
    Builder.outcome_run (.start name) ts hts.ne_ending (List.forall_mem_nil _)
  have heq := (hrun file).trans (hrun other).symm
  rw [outcome, outcome, h] at heq
  cases hother : (ofTokens ts other).result with
  | error e =>
    rw [hother] at heq
    cases heq
  | ok tree' =>
    rw [hother] at heq
    exact Outcome.accepted.inj heq

end Reading

/-! ## Sources -/

/-- The number of the blocks of a sheet that have no end. -/
def openBlocks (source : String) : Nat :=
  (Reading.ofTokens (scanSource source).tokens none).faults.countP (·.cause = .unclosedBlock)

/-- An address without an end reaches up to a line feed at the end of the sheet, and the last
declaration, which it belongs to, is marked as important. -/
structure LosesFeed (source : String) (tree : Tree) : Prop where
  openUrl : ∃ f ∈ (scanSource source).final.faults, f.cause = .unclosedUrl
  feed : source.toList.getLast? = some '\n'
  important : tree.endsImportant = true

namespace SourceReading

variable {source : String} {file : Option String} {tree : Tree}

/-- Where a line feed is not escaped, an address without an end reaches up to it. -/
theorem openUrl_of_not_lexical (h : (ofSource source file).tree = .ok tree)
    (hlexical : ¬Lexical (scanSource source).tokens) :
    (∃ f ∈ (scanSource source).final.faults, f.cause = .unclosedUrl) ∧
      source.toList.getLast? = some '\n' := by
  obtain ⟨hfailure, hsource, -, -⟩ := tokens_of_tree h
  have hreads := reads_scanSource hfailure
  have hfeeds : ¬FeedsEscaped (scanSource source).tokens := fun hfeeds =>
    hlexical ⟨marked_tokens h, hfeeds⟩
  unfold FeedsEscaped at hfeeds
  simp only [not_forall] at hfeeds
  obtain ⟨t, ht, hkind, hnot⟩ := hfeeds
  have hraw := hreads.raw_ne_nil ht
  have hunescaped : ¬FeedEscaped t.raw.toList := fun hfeed => hnot ⟨hraw, hfeed⟩
  constructor
  · by_contra hnone
    exact hunescaped (hreads.feedEscaped (fun f hf hurl => hnone ⟨f, hf, hurl⟩) ht hkind)
  · obtain ⟨front, behind, htokens⟩ := List.append_of_mem ht
    obtain ⟨-, hfeed | rfl⟩ := hreads.feedsBefore t behind ⟨front, htokens.symm⟩ hkind
    · exact absurd hfeed hunescaped
    · have hlast : t.raw.toList.getLast? = some '\n' := by
        by_contra hne
        exact hunescaped fun hfeed => absurd hfeed hne
      rw [← hsource, htokens, rawText_append, rawText_cons, rawText_nil, String.append_empty,
        String.toList_append, List.getLast?_append, hlast, Option.some_or]

/-- A sheet that loses no line feed is written back as it was, with a closing brace more for each
block without an end. -/
theorem text_eq_append_closers (h : (ofSource source file).tree = .ok tree)
    (hlost : ¬LosesFeed source tree) :
    tree.text false = source ++ closers (openBlocks source) := by
  obtain ⟨hfailure, hsource, hresult, -⟩ := tokens_of_tree h
  rw [openBlocks, ← Reading.countP_eq (marked_tokens h) hresult none]
  by_cases hlexical : Lexical (scanSource source).tokens
  · exact Reading.text_of_result hsource hlexical hresult
  · obtain ⟨hurl, hfeed⟩ := openUrl_of_not_lexical h hlexical
    refine Reading.text_of_not_endsImportant hsource (marked_tokens h)
      (reads_scanSource hfailure).feedsBefore hresult (Bool.eq_false_iff.2 fun himportant => ?_)
    exact hlost ⟨hurl, hfeed, himportant⟩

end SourceReading

end PixelUnit.Sheet
