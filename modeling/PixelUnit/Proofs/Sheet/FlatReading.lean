import PixelUnit.Proofs.Sheet.Exchange
import PixelUnit.Proofs.Sheet.Matching
import PixelUnit.Proofs.Sheet.Tags

/-!
# Sheets read flat

Reading a sheet without a fault goes through its tokens once and gives the tags of the tree
(`ReadsTags`). Of what has been read, it needs little: the text since the last node, and for each
open container whether a semicolon follows its last child. So the tokens behind a node are read in
the same way whatever stands before them.

This is the reading of the builder: a reading that notes no fault gives the tags of the tree it ends
with (`Builder.exists_readsTags`), and tokens that can be read flat are read to a tree with their
tags (`ReadsTags.exists_tree`). The text of the tags is the text of the tokens
(`ReadsTags.written_eq`).
-/

namespace PixelUnit.Sheet

/-! ## Statements -/

/-- The statement in front of some tokens with what ends it, what it says, and how it is written
behind a text. -/
inductive Statement : List Token → Prelude → Content → (String → Raws) → Prop
  | atRule {t : Token} {r : List Token} {q : Prelude} (ht : t.kind = .atKeyword)
      (hq : q = Prelude.read [] (r.dropWhile Token.isSpacing)) :
      Statement (t :: r) q (.atRule t.keyword (rawText (splitTrailing q.tokens).1) q.opensBlock)
        fun before => Builder.atRuleRaws before (r.takeWhile Token.isSpacing) q
  | rule {t : Token} {r : List Token} {q : Prelude} (ht : t.kind.StartsStatement)
      (hq : q = Prelude.read [] (t :: r)) (hopen : q.opensBlock = true) :
      Statement (t :: r) q (.rule (rawText (splitTrailing q.tokens).1))
        fun before => Builder.ruleRaws before q
  | declaration {t : Token} {r : List Token} {q : Prelude} (ht : t.kind.StartsStatement)
      (hq : q = Prelude.read [] (t :: r)) (hopen : q.opensBlock = false)
      (d : DeclarationCut q.tokens) (hd : d.Exact) : Statement (t :: r) q d.content d.raws

namespace Statement

variable {ts : List Token} {q : Prelude} {content : Content} {raws : String → Raws}

/-- A statement is no comment. -/
theorem isComment_eq (h : Statement ts q content raws) : content.isComment = false := by
  cases h <;> rfl

/-- An at-rule with the white space behind its name. -/
theorem atRule_behind {t : Token} {gap x : List Token} (ht : t.kind = .atKeyword)
    (hgap : ∀ u ∈ gap, u.isSpacing = true) (hx : ∀ u ∈ x.head?, u.isSpacing = false)
    (hq : q = Prelude.read [] x) : Statement (t :: (gap ++ x)) q
      (.atRule t.keyword (rawText (splitTrailing q.tokens).1) q.opensBlock)
      fun before => Builder.atRuleRaws before gap q := by
  have h := Statement.atRule (r := gap ++ x) ht (hq.trans (by rw [Text.dropWhile_run hgap hx]))
  rwa [Text.takeWhile_run hgap hx] at h

/-- The node of a statement that opens a block has children, no other has. -/
theorem shows_eq (h : Statement ts q content raws) :
    Tree.showsChildren content = q.opensBlock := by
  cases h with
  | atRule => cases q.opensBlock <;> rfl
  | rule _ _ hopen => exact hopen.symm
  | declaration _ _ hopen => exact hopen.symm

/-- Nothing is known of the children of a statement. -/
theorem front_raws (h : Statement ts q content raws) (before : String) :
    (raws before).front = raws before ∧ (raws before).semicolon = none := by
  cases h <;> exact ⟨rfl, rfl⟩

/-- A statement is followed by a part of the tokens behind its start. -/
theorem rest_suffix (h : Statement ts q content raws) : q.rest <:+ ts := by
  cases h with
  | atRule _ hq =>
    subst hq
    exact ((Prelude.rest_suffix [] _).trans (List.dropWhile_suffix _)).trans (List.suffix_cons _ _)
  | rule _ hq | declaration _ hq =>
    subst hq
    exact Prelude.rest_suffix [] _

/-- No container ends where a statement starts. -/
theorem not_closesNext (h : Statement ts q content raws) : ¬ClosesNext ts := by
  intro hts
  cases h with
  | atRule ht =>
    rw [hts _ rfl] at ht
    cases ht
  | rule ht | declaration ht => exact ht.2.2.2.1 (hts _ rfl)

/-- A statement that opens no block ends in a semicolon, or its container ends behind it. -/
theorem endsInSemicolon_or_closesNext (h : Statement ts q content raws)
    (hopen : q.opensBlock = false) (hts : ∀ t ∈ ts, t.kind ≠ .ending) :
    q.endsInSemicolon = true ∨ q.endsInSemicolon = false ∧ ClosesNext q.rest := by
  have hread : ∀ us, q = Prelude.read [] us → (∀ t ∈ us, t.kind ≠ .ending) →
      q.endsInSemicolon = true ∨ q.endsInSemicolon = false ∧ ClosesNext q.rest := by
    rintro us rfl hus
    rcases Prelude.endsInSemicolon_or_closesNext hopen hus with ⟨-, -, -, h⟩ | ⟨-, h⟩
    · exact Or.inl h
    · exact Or.inr h
  cases h with
  | atRule _ hq => exact hread _ hq fun u hu => hts u (Builder.dropWhile_subset_cons _ _ hu)
  | rule _ hq | declaration _ hq => exact hread _ hq hts

/-- The text of a statement that opens a block. -/
theorem text_opening (h : Statement ts q content raws) (hopen : q.opensBlock = true)
    (hts : Lexical ts) (before : String) :
    Frame.head ⟨content, raws before, []⟩ ++ rawText q.rest = before ++ rawText ts := by
  cases h with
  | @atRule t r _ ht hq =>
    have hdrop := hts.toMarked.mono (Builder.dropWhile_subset_cons t r)
    show Tree.atRuleHead _ _ _ ++ _ ++ "\x7b" ++ rawText q.rest = before ++ rawText (t :: r)
    rw [rawText_cons, Builder.rawText_spacing r, Builder.rawText_of_opensBlock hq hopen hdrop,
      Builder.rawText_splitTrailing q.tokens, ← hts.toMarked.keyword_eq List.mem_cons_self ht]
    simp [Tree.atRuleHead, Builder.atRuleRaws, String.append_assoc]
  | @rule t r _ ht hq =>
    show _ ++ _ ++ _ ++ "\x7b" ++ rawText q.rest = before ++ rawText (t :: r)
    rw [Builder.rawText_of_opensBlock hq hopen hts.toMarked, Builder.rawText_splitTrailing q.tokens]
    simp [Builder.ruleRaws, String.append_assoc]
  | declaration _ _ hopen' => rw [hopen] at hopen'; cases hopen'

/-- The text of a statement that opens no block. -/
theorem text_leaf (h : Statement ts q content raws) (hopen : q.opensBlock = false)
    (hts : Lexical ts) (before : String) :
    (Tree.node content (raws before) []).text q.endsInSemicolon ++ rawText q.rest =
      before ++ rawText ts := by
  cases h with
  | @atRule t r _ ht hq =>
    have hdrop := hts.toMarked.mono (Builder.dropWhile_subset_cons t r)
    obtain ⟨htext, -⟩ := Builder.rawText_of_not_opensBlock hq hopen hdrop
    rw [rawText_cons, Builder.rawText_spacing r, htext, Builder.rawText_splitTrailing q.tokens,
      ← hts.toMarked.keyword_eq List.mem_cons_self ht, hopen]
    simp [Tree.text, Tree.atRuleHead, Builder.atRuleRaws, String.append_assoc]
  | rule _ _ hopen' => rw [hopen] at hopen'; cases hopen'
  | @declaration t r _ ht hq _ d =>
    obtain ⟨htext, -⟩ := Builder.rawText_of_not_opensBlock hq hopen hts.toMarked
    rw [d.text_node (d.written_append_markText (hts.feeds.mono (Builder.tokens_subset hq))), htext]
    simp only [String.append_assoc]

end Statement

/-! ## Reading flat -/

/-- Behind a text, with a note for each open container, from the inside out, whether a semicolon
follows its last child, tokens are read as tags. -/
inductive ReadsTags : List (Option Bool) → String → List Token → List Tag → Prop
  | finish {s : Option Bool} {p : String} : ReadsTags [s] p [] [.closing "" (some p) s]
  | pass {ss : List (Option Bool)} {p : String} {t : Token} {r : List Token} {l : List Tag}
      (ht : t.kind = .spacing ∨ t.kind = .semicolon) (h : ReadsTags ss (p ++ t.raw) r l) :
      ReadsTags ss p (t :: r) l
  | close {s s' : Option Bool} {ss : List (Option Bool)} {p : String} {t : Token} {r : List Token}
      {l : List Tag} (ht : t.kind = .closeBrace) (h : ReadsTags (s' :: ss) "" r l) :
      ReadsTags (s :: s' :: ss) p (t :: r) (.closing "\x7d" (some p) s :: l)
  | comment {ss : List (Option Bool)} {p : String} {t : Token} {r : List Token} {l : List Tag}
      (ht : t.kind = .comment) (h : ReadsTags ss "" r l) :
      ReadsTags ss p (t :: r) (.leaf (commentNode p t).content (commentNode p t).raws :: l)
  | line {s : Option Bool} {ss : List (Option Bool)} {p : String} {ts : List Token} {q : Prelude}
      {content : Content} {raws : String → Raws} {l : List Tag}
      (hq : Statement ts q content raws) (hopen : q.opensBlock = false)
      (hclosed : q.unclosed = false) (h : ReadsTags (some q.endsInSemicolon :: ss) "" q.rest l) :
      ReadsTags (s :: ss) p ts (.leaf content (raws p) :: l)
  | block {s : Option Bool} {ss : List (Option Bool)} {p : String} {ts : List Token} {q : Prelude}
      {content : Content} {raws : String → Raws} {l : List Tag}
      (hq : Statement ts q content raws) (hopen : q.opensBlock = true)
      (hclosed : q.unclosed = false) (h : ReadsTags (none :: s :: ss) "" q.rest l) :
      ReadsTags (s :: ss) p ts (.opening content (raws p) :: l)

namespace ReadsTags

variable {s : Option Bool} {ss : List (Option Bool)} {p : String} {ts : List Token} {l k : List Tag}

/-- No tokens are read as no tags: the sheet itself has a closing one. -/
theorem ne_nil (h : ReadsTags ss p ts l) : l ≠ [] := by
  induction h with
  | pass _ _ ih => exact ih
  | finish | close | comment | line | block => exact List.cons_ne_nil _ _

/-- Where a semicolon follows the last child so far, the node before asks for one. -/
theorem asks_eq_true (h : ReadsTags (some true :: ss) p ts (k ++ l)) : Tag.asks true k = true := by
  generalize hs : some true :: ss = ss', hk : k ++ l = k' at h
  -- Passed tokens note nothing; a tag that is read decides, save that a comment hands the question
  -- on to the next one.
  induction h generalizing k with
  | finish =>
    cases hs
    cases k with
    | nil => rfl
    | cons t k =>
      obtain ⟨rfl, -⟩ := List.cons.inj hk
      rfl
  | pass _ _ ih => exact ih hs hk
  | close _ _ =>
    cases hs
    cases k with
    | nil => rfl
    | cons t k =>
      obtain ⟨rfl, -⟩ := List.cons.inj hk
      rfl
  | comment _ _ ih =>
    cases k with
    | nil => rfl
    | cons t k =>
      obtain ⟨rfl, hrest⟩ := List.cons.inj hk
      rw [Tag.asks, ih hs hrest, Bool.or_true]
  | line hq =>
    cases k with
    | nil => rfl
    | cons t k =>
      obtain ⟨rfl, -⟩ := List.cons.inj hk
      rw [Tag.asks, hq.isComment_eq]
      rfl
  | block =>
    cases k with
    | nil => rfl
    | cons t k =>
      obtain ⟨rfl, -⟩ := List.cons.inj hk
      rfl

/-- Where no semicolon follows the last child, its container ends at once. -/
theorem exists_closing (h : ReadsTags (s :: ss) p ts l) (hts : ClosesNext ts) :
    ∃ brace k, l = .closing brace (some p) s :: k := by
  cases h with
  | finish => exact ⟨_, _, rfl⟩
  | close => exact ⟨_, _, rfl⟩
  | pass ht =>
    rw [hts _ rfl] at ht
    rcases ht with ht | ht <;> cases ht
  | comment ht =>
    rw [hts _ rfl] at ht
    cases ht
  | line hq | block hq => exact absurd hts hq.not_closesNext

/-- What a statement asks what follows it for is what it ends in. -/
theorem asks_eq_endsInSemicolon {q : Prelude} {content : Content} {raws : String → Raws}
    (hq : Statement ts q content raws) (hopen : q.opensBlock = false)
    (hts : ∀ t ∈ ts, t.kind ≠ .ending)
    (h : ReadsTags (some q.endsInSemicolon :: ss) "" q.rest l) (hk : k <+: l) (hne : k ≠ []) :
    Tag.asks true k = q.endsInSemicolon := by
  obtain ⟨l', rfl⟩ := hk
  rcases hq.endsInSemicolon_or_closesNext hopen hts with hends | ⟨hends, hnext⟩
  · rw [hends] at h ⊢
    exact h.asks_eq_true
  · obtain ⟨brace, k', hl⟩ := h.exists_closing hnext
    obtain ⟨t, k, rfl⟩ := List.exists_cons_of_ne_nil hne
    obtain ⟨rfl, -⟩ := List.cons.inj hl
    rw [hends]
    rfl

theorem text_comment {t : Token} (ht : t.kind = .comment) (hmarks : t.kind.Marks t.raw.toList)
    (p : String) (semicolon : Bool) :
    (Tag.leaf (commentNode p t).content (commentNode p t).raws).text semicolon = p ++ t.raw :=
  text_commentNode ht hmarks p semicolon

/-- Whether one more semicolon is asked for in the end makes no difference to tags that close all
containers. -/
theorem asks_congr (h : ReadsTags ss p ts l) (a b : Bool) : Tag.asks a l = Tag.asks b l := by
  induction h with
  | pass _ _ ih => exact ih
  | comment _ _ ih => rw [Tag.asks, Tag.asks, ih]
  | line hq => rw [Tag.asks, Tag.asks, hq.isComment_eq]; rfl
  | finish | close | block => rfl

/-- The text of the tags is the text since the last node and that of the tokens. -/
theorem written_eq (h : ReadsTags ss p ts l) (hts : Lexical ts) (a : Bool) :
    Tag.written a l = p ++ rawText ts := by
  induction h with
  | finish => simp [Tag.written]
  | pass _ _ ih =>
    rw [ih (hts.mono (List.subset_cons_self _ _)), rawText_cons, String.append_assoc]
  | @close s s' ss p t r l ht _ ih =>
    rw [Tag.written, ih (hts.mono (List.subset_cons_self _ _)), Tag.text_closing, rawText_cons,
      (hts.raw_eq List.mem_cons_self).2.1 ht]
    simp [String.append_assoc]
  | @comment ss p t r l ht _ ih =>
    rw [Tag.written, ih (hts.mono (List.subset_cons_self _ _)), rawText_cons,
      text_comment ht (hts.marks t List.mem_cons_self), String.empty_append, String.append_assoc]
  | @line s ss p ts q content raws l hq hopen _ h ih =>
    have hasks : Tag.asks a l = q.endsInSemicolon := by
      rw [h.asks_congr a true]
      exact asks_eq_endsInSemicolon hq hopen hts.ne_ending h (List.prefix_refl l) h.ne_nil
    rw [Tag.written, ih (hts.mono hq.rest_suffix.subset), hasks, String.empty_append]
    exact hq.text_leaf hopen hts p
  | @block s ss p ts q content raws l hq hopen _ _ ih =>
    rw [Tag.written, ih (hts.mono hq.rest_suffix.subset), String.empty_append]
    exact hq.text_opening hopen hts p

end ReadsTags

/-! ## Readings -/

/-- An open container and its children so far as tags. -/
def Frame.tags (f : Frame) : List Tag :=
  .opening f.content f.raws.front :: Tree.tagsOf f.children.reverse

/-- Open containers, from the inside out, as tags. -/
def stackTags : List Frame → List Tag
  | [] => []
  | f :: fs => stackTags fs ++ f.tags

/-- The outermost container is the sheet; all others are blocks. -/
def Nested : Frame → List Frame → Prop
  | f, [] => f.IsRoot
  | f, g :: gs => f.IsBlock ∧ Nested g gs

/-- Only the content of the innermost container counts. -/
theorem Nested.of_content_eq {f f' : Frame} {gs : List Frame} (h : Nested f gs)
    (hf : f'.content = f.content) : Nested f' gs := by
  cases gs with
  | nil =>
    obtain ⟨file, h⟩ := h
    exact ⟨file, hf.trans h⟩
  | cons g gs =>
    obtain ⟨hblock, hrest⟩ := h
    refine ⟨?_, hrest⟩
    rwa [Frame.IsBlock, hf]

namespace Frame

theorem tags_add (f : Frame) (t : Tree) : (f.add t).tags = f.tags ++ t.tags := by
  rw [tags, tags, add, List.reverse_cons, Tree.tagsOf_append, Tree.tagsOf_singleton,
    List.cons_append]

theorem tags_setSemicolon (f : Frame) (semicolon : Bool) :
    (f.setSemicolon semicolon).tags = f.tags := rfl

/-- A container that is finished has one more tag. -/
theorem tags_close {f : Frame} (hshows : Tree.showsChildren f.content = true) (after : String) :
    (f.close after).tags = f.tags ++ [.closing f.content.brace (some after) f.raws.semicolon] := by
  rw [close, Tree.tags_of_shows hshows]
  rfl

theorem IsBlock.shows {f : Frame} (h : f.IsBlock) :
    Tree.showsChildren f.content = true ∧ f.content.brace = "\x7d" := by
  rcases h with ⟨selector, h⟩ | ⟨name, params, h⟩ <;> rw [h] <;> exact ⟨rfl, rfl⟩

theorem IsRoot.shows {f : Frame} (h : f.IsRoot) :
    Tree.showsChildren f.content = true ∧ f.content.brace = "" := by
  obtain ⟨file, h⟩ := h
  rw [h]
  exact ⟨rfl, rfl⟩

end Frame

namespace Builder

/-- All that has been read as tags. -/
def tags (b : Builder) : List Tag :=
  stackTags (b.frame :: b.outer)

/-- For each open container, from the inside out, whether a semicolon follows its last child. -/
def notes (b : Builder) : List (Option Bool) :=
  (b.frame :: b.outer).map (·.raws.semicolon)

variable {b b' : Builder} {ts ts' : List Token} {l : List Tag} {q : Prelude} {content : Content}
  {raws : String → Raws}

/-- The state behind a statement that opens no block. -/
def behindLine (b : Builder) (q : Prelude) (taken : List Token) (t : Tree) : Builder :=
  ((b.note q.fault?).setSemicolon q.endsInSemicolon).add taken t

/-- A statement that opens no block is one tag more. -/
theorem tags_behindLine (b : Builder) (hq : Statement ts q content raws)
    (hopen : q.opensBlock = false) (taken : List Token) (raws' : Raws) :
    (b.behindLine q taken (.node content raws' [])).tags = b.tags ++ [.leaf content raws'] := by
  show stackTags b.outer ++ ((b.frame.setSemicolon q.endsInSemicolon).add _).tags = _
  rw [Frame.tags_add, Frame.tags_setSemicolon,
    Tree.tags_of_not_shows (hq.shows_eq.trans hopen), ← List.append_assoc]
  rfl

/-- A block that is opened is one tag more. -/
theorem tags_openBlock (b : Builder) (hq : Statement ts q content raws) (fault : Option Fault)
    (taken : List Token) (before : String) :
    ((b.note fault).openBlock taken content (raws before)).tags =
      b.tags ++ [.opening content (raws before)] := by
  show stackTags (b.frame :: b.outer) ++ (.opening content (raws before).front :: []) = _
  rw [(hq.front_raws before).1]
  rfl

theorem tags_comment (b : Builder) (t : Token) :
    (b.add [t] (commentNode b.pending t)).tags = b.tags ++ (commentNode b.pending t).tags := by
  show stackTags b.outer ++ (b.frame.add (commentNode b.pending t)).tags = _
  rw [Frame.tags_add, ← List.append_assoc]
  rfl

/-- A block that is closed has its closing tag behind its children. -/
theorem tags_closeBlock {f : Frame} {fs : List Frame} (hnested : Nested b.frame b.outer)
    (hb : b.outer = f :: fs) (t : Token) :
    { b.pass [t] with frame := f.add (b.frame.close b.pending), outer := fs }.tags =
      b.tags ++ [.closing "\x7d" (some b.pending) b.frame.raws.semicolon] := by
  rw [hb] at hnested
  obtain ⟨hshows, hbrace⟩ := hnested.1.shows
  show stackTags fs ++ (f.add (b.frame.close b.pending)).tags = stackTags (b.frame :: b.outer) ++ _
  rw [Frame.tags_add, Frame.tags_close hshows, hbrace, hb, stackTags, stackTags]
  simp only [List.append_assoc]

/-- A step is taken for a statement that opens no block. -/
theorem step_line (b : Builder) (hq : Statement ts q content raws) (hopen : q.opensBlock = false) :
    ∃ taken, Step b ts (b.behindLine q taken (.node content (raws b.pending) [])) q.rest := by
  cases hq with
  | atRule ht hq =>
    rw [hopen]
    exact ⟨_, .atLine ht rfl hq hopen⟩
  | rule _ _ hopen' => rw [hopen] at hopen'; cases hopen'
  | declaration ht hq _ d hd => exact ⟨_, .declaration ht hq hopen d hd⟩

/-- A step is taken for a statement that opens a block. -/
theorem step_block (b : Builder) (hq : Statement ts q content raws) (hopen : q.opensBlock = true) :
    ∃ taken, Step b ts ((b.note q.fault?).openBlock taken content (raws b.pending)) q.rest := by
  cases hq with
  | atRule ht hq =>
    rw [hopen]
    exact ⟨_, .atBlock ht rfl hq hopen⟩
  | rule ht hq => exact ⟨_, .rule ht hq hopen⟩
  | declaration _ _ hopen' => rw [hopen] at hopen'; cases hopen'

/-- What is noted of a statement shows whether its brackets are closed. -/
theorem unclosed_of_note (hq : Statement ts q content raws)
    (hnone : (b.note q.fault?).faults = []) : q.unclosed = false := by
  have hfault : q.fault? = none := by
    simpa using (List.append_eq_nil_iff.1 hnone).2
  cases hq with
  | atRule _ hq | rule _ hq | declaration _ hq =>
    subst hq
    exact Prelude.unclosed_eq_false hfault

theorem note_of_closed (h : q.unclosed = false) (hnone : b.faults = []) :
    (b.note q.fault?).faults = [] := by
  rw [note, Prelude.fault?, h, if_neg Bool.false_ne_true]
  simpa using hnone

/-- A step leaves the sheet outermost, and all else blocks. -/
theorem Step.nested (h : Step b ts b' ts') (hnested : Nested b.frame b.outer) :
    Nested b'.frame b'.outer := by
  cases h with
  | space | semicolon => exact hnested
  | close _ hb =>
    rw [hb] at hnested
    exact hnested.2.of_content_eq rfl
  | comment | atLine | declaration => exact hnested.of_content_eq rfl
  | atBlock => exact ⟨Or.inr ⟨_, _, rfl⟩, hnested⟩
  | rule => exact ⟨Or.inl ⟨_, rfl⟩, hnested⟩

theorem readsTags_line (hq : Statement ts q content raws) (hopen : q.opensBlock = false)
    (taken : List Token)
    (hnone : (b.behindLine q taken (.node content (raws b.pending) [])).faults = [])
    (hl : ReadsTags (b.behindLine q taken (.node content (raws b.pending) [])).notes "" q.rest l) :
    ∃ e, ReadsTags b.notes b.pending ts (e ++ l) ∧
      (b.behindLine q taken (.node content (raws b.pending) [])).tags = b.tags ++ e :=
  ⟨[.leaf content (raws b.pending)], .line hq hopen (unclosed_of_note hq hnone) hl,
    tags_behindLine b hq hopen taken _⟩

/-- What is read as tags behind the start of a block is read so with the start in front. -/
theorem readsTags_block (hq : Statement ts q content raws) (hopen : q.opensBlock = true)
    (taken : List Token)
    (hnone : ((b.note q.fault?).openBlock taken content (raws b.pending)).faults = [])
    (hl : ReadsTags ((b.note q.fault?).openBlock taken content (raws b.pending)).notes "" q.rest
      l) :
    ∃ e, ReadsTags b.notes b.pending ts (e ++ l) ∧
      ((b.note q.fault?).openBlock taken content (raws b.pending)).tags = b.tags ++ e := by
  refine ⟨[.opening content (raws b.pending)], .block hq hopen (unclosed_of_note hq hnone) ?_,
    tags_openBlock b hq _ taken _⟩
  rw [← (hq.front_raws b.pending).2]
  exact hl

/-- What a step adds to the tags is what is read of its tokens. -/
theorem Step.readsTags (h : Step b ts b' ts') (hnested : Nested b.frame b.outer)
    (hnone : b'.faults = []) (hl : ReadsTags b'.notes b'.pending ts' l) :
    ∃ e, ReadsTags b.notes b.pending ts (e ++ l) ∧ b'.tags = b.tags ++ e := by
  cases h with
  | space ht => exact ⟨[], .pass (Or.inl ht) hl, (List.append_nil _).symm⟩
  | semicolon ht => exact ⟨[], .pass (Or.inr ht) hl, (List.append_nil _).symm⟩
  | @close t _ f fs ht hb =>
    refine ⟨[.closing "\x7d" (some b.pending) b.frame.raws.semicolon], ?_,
      tags_closeBlock hnested hb t⟩
    rw [notes, hb]
    exact .close ht hl
  | @comment t _ ht =>
    exact ⟨(commentNode b.pending t).tags, .comment ht hl, tags_comment b t⟩
  | @atBlock t r gap p ht hgap hp hopen =>
    subst hgap
    have hq := Statement.atRule ht hp
    rw [hopen] at hq
    exact readsTags_block hq hopen _ hnone hl
  | @atLine t r gap p ht hgap hp hopen =>
    subst hgap
    have hq := Statement.atRule ht hp
    rw [hopen] at hq
    exact readsTags_line hq hopen _ hnone hl
  | rule ht hp hopen => exact readsTags_block (.rule ht hp hopen) hopen _ hnone hl
  | declaration ht hp hopen d hd =>
    exact readsTags_line (.declaration ht hp hopen d hd) hopen _ hnone hl

/-- The end of a reading without open blocks gives the last tag. -/
theorem tags_finish (hnested : Nested b.frame b.outer) (houter : b.outer = []) :
    (b.frame.close b.pending).tags =
      b.tags ++ [.closing "" (some b.pending) b.frame.raws.semicolon] := by
  rw [houter] at hnested
  obtain ⟨hshows, hbrace⟩ := hnested.shows
  rw [Frame.tags_close hshows, hbrace, tags, houter, stackTags, stackTags, List.nil_append]

/-- A reading that notes no fault gives the tags of its tree. -/
theorem exists_readsTags {tree : Tree} (hnested : Nested b.frame b.outer)
    (hts : ∀ t ∈ ts, t.kind ≠ .ending) (hok : (b.run ts).result = .ok tree)
    (hnone : (b.run ts).faults = []) :
    ∃ l, ReadsTags b.notes b.pending ts l ∧ tree.tags = b.tags ++ l := by
  refine run_induction (P := fun b ts => Nested b.frame b.outer → (∀ t ∈ ts, t.kind ≠ .ending) →
    (b.run ts).result = .ok tree → (b.run ts).faults = [] →
    ∃ l, ReadsTags b.notes b.pending ts l ∧ tree.tags = b.tags ++ l) ?_ ?_ b ts hok hnested hts hok
    hnone
  · intro b ts pos hend hrun hnested hts hok hnone
    obtain rfl := hend.eq_nil hts
    rw [hrun] at hok hnone
    have houter : b.outer = [] := List.map_eq_nil_iff.1 (List.append_eq_nil_iff.1 hnone).2
    obtain rfl := Except.ok.inj hok
    refine ⟨[.closing "" (some b.pending) b.frame.raws.semicolon], ?_, ?_⟩
    · rw [notes, houter]
      exact .finish
    · rw [houter]
      exact tags_finish hnested houter
  · intro b ts b' ts' hstep ih hnested hts hok hnone
    rw [hstep.run_eq] at hok hnone
    have hfaults := faults_of_run hok hnone
    have hts' : ∀ t ∈ ts', t.kind ≠ .ending := fun t ht => hts t (hstep.suffix.subset ht)
    obtain ⟨l, hl, htags⟩ := ih (hstep.nested hnested) hts' hok hnone
    obtain ⟨e, he, htags'⟩ := hstep.readsTags hnested hfaults hl
    exact ⟨e ++ l, he, by rw [htags, htags', List.append_assoc]⟩

/-! ## Readings continued -/

/-- Where a reading without a fault stands: the notes of the open containers, the text since the
last node, and what has been read as tags. -/
structure Stands (b : Builder) (ss : List (Option Bool)) (p : String) (ls : List Tag) : Prop where
  notes : b.notes = ss
  pending : b.pending = p
  nested : Nested b.frame b.outer
  faults : b.faults = []
  tags : b.tags = ls

theorem stands_start (file : Option String) :
    (start file).Stands [none] "" [.opening (.root file) {}] :=
  ⟨rfl, rfl, ⟨file, rfl⟩, rfl, rfl⟩

namespace Stands

variable {s s' : Option Bool} {ss : List (Option Bool)} {p : String} {ls : List Tag} {t : Token}

/-- White space and semicolons between nodes are passed. -/
theorem pass (h : b.Stands ss p ls) (ht : t.kind = .spacing ∨ t.kind = .semicolon)
    (r : List Token) :
    ∃ b' : Builder, b.run (t :: r) = b'.run r ∧ b'.Stands ss (p ++ t.raw) ls := by
  obtain ⟨rfl, rfl, hnested, hnone, rfl⟩ := h
  rcases ht with ht | ht
  · exact ⟨_, (Step.space ht).run_eq, rfl, rfl, hnested, hnone, rfl⟩
  · exact ⟨_, (Step.semicolon ht).run_eq, rfl, rfl, hnested, hnone, rfl⟩

/-- A brace closes the innermost container. -/
theorem close (h : b.Stands (s :: s' :: ss) p ls) (ht : t.kind = .closeBrace) (r : List Token) :
    ∃ b' : Builder, b.run (t :: r) = b'.run r ∧
      b'.Stands (s' :: ss) "" (ls ++ [.closing "\x7d" (some p) s]) := by
  obtain ⟨hnotes, rfl, hnested, hnone, rfl⟩ := h
  obtain ⟨rfl, houter⟩ := List.cons.inj hnotes
  obtain ⟨f, fs, hb, rfl, rfl⟩ := List.map_eq_cons_iff.1 houter
  have hstep := Step.close (r := r) ht hb
  exact ⟨_, hstep.run_eq, rfl, rfl, hstep.nested hnested, hnone, tags_closeBlock hnested hb t⟩

/-- A comment is a node. -/
theorem comment (h : b.Stands ss p ls) (ht : t.kind = .comment) (r : List Token) :
    ∃ b' : Builder, b.run (t :: r) = b'.run r ∧
      b'.Stands ss "" (ls ++ [.leaf (commentNode p t).content (commentNode p t).raws]) := by
  obtain ⟨rfl, rfl, hnested, hnone, rfl⟩ := h
  have hstep := Step.comment (b := b) (r := r) ht
  exact ⟨_, hstep.run_eq, rfl, rfl, hstep.nested hnested, hnone, tags_comment b t⟩

/-- A statement that opens no block is a node. -/
theorem line (h : b.Stands (s :: ss) p ls) (hq : Statement ts q content raws)
    (hopen : q.opensBlock = false) (hclosed : q.unclosed = false) :
    ∃ b' : Builder, b.run ts = b'.run q.rest ∧
      b'.Stands (some q.endsInSemicolon :: ss) "" (ls ++ [.leaf content (raws p)]) := by
  obtain ⟨hnotes, rfl, hnested, hnone, rfl⟩ := h
  obtain ⟨rfl, rfl⟩ := List.cons.inj hnotes
  obtain ⟨taken, hstep⟩ := step_line b hq hopen
  exact ⟨_, hstep.run_eq, rfl, rfl, hstep.nested hnested, note_of_closed hclosed hnone,
    tags_behindLine b hq hopen taken _⟩

/-- A statement that opens a block does so. -/
theorem block (h : b.Stands (s :: ss) p ls) (hq : Statement ts q content raws)
    (hopen : q.opensBlock = true) (hclosed : q.unclosed = false) :
    ∃ b' : Builder, b.run ts = b'.run q.rest ∧
      b'.Stands (none :: s :: ss) "" (ls ++ [.opening content (raws p)]) := by
  obtain ⟨hnotes, rfl, hnested, hnone, rfl⟩ := h
  obtain ⟨taken, hstep⟩ := step_block b hq hopen
  refine ⟨_, hstep.run_eq, ?_, rfl, hstep.nested hnested, note_of_closed hclosed hnone,
    tags_openBlock b hq _ taken _⟩
  rw [← hnotes, ← (hq.front_raws b.pending).2]
  rfl

/-- The end of the tokens closes the sheet. -/
theorem finish (h : b.Stands [s] p ls) : ∃ tree, (b.run []).result = .ok tree ∧
    (b.run []).faults = [] ∧ tree.tags = ls ++ [.closing "" (some p) s] := by
  obtain ⟨hnotes, rfl, hnested, hnone, rfl⟩ := h
  obtain ⟨rfl, hempty⟩ := List.cons.inj hnotes
  have houter : b.outer = [] := List.map_eq_nil_iff.1 hempty
  refine ⟨b.frame.close b.pending, ?_, ?_, tags_finish hnested houter⟩
  · rw [run, Builder.finish, houter]
    rfl
  · rw [run, Builder.finish, houter, hnone]
    rfl

end Stands

end Builder

/-- Tokens that can be read flat are read without a fault, and the tree has the tags. -/
theorem ReadsTags.exists_tree {ss : List (Option Bool)} {p : String} {ts : List Token}
    {l : List Tag} (h : ReadsTags ss p ts l) : ∀ {b : Builder} {ls : List Tag}, b.Stands ss p ls →
    ∃ tree, (b.run ts).result = .ok tree ∧ (b.run ts).faults = [] ∧ tree.tags = ls ++ l := by
  induction h with
  | finish => exact fun hb => hb.finish
  | pass ht _ ih =>
    intro b ls hb
    obtain ⟨b', hrun, hb'⟩ := hb.pass ht _
    rw [hrun]
    exact ih hb'
  | close ht _ ih =>
    intro b ls hb
    obtain ⟨b', hrun, hb'⟩ := hb.close ht _
    rw [hrun, List.append_cons]
    exact ih hb'
  | comment ht _ ih =>
    intro b ls hb
    obtain ⟨b', hrun, hb'⟩ := hb.comment ht _
    rw [hrun, List.append_cons]
    exact ih hb'
  | line hq hopen hclosed _ ih =>
    intro b ls hb
    obtain ⟨b', hrun, hb'⟩ := hb.line hq hopen hclosed
    rw [hrun, List.append_cons]
    exact ih hb'
  | block hq hopen hclosed _ ih =>
    intro b ls hb
    obtain ⟨b', hrun, hb'⟩ := hb.block hq hopen hclosed
    rw [hrun, List.append_cons]
    exact ih hb'

end PixelUnit.Sheet
