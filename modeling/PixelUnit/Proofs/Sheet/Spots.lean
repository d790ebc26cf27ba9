import PixelUnit.Proofs.Sheet.NewFields

/-!
# One statement in a sheet

A statement of a sheet that was read without a fault can be written anew where it stands
(`Spot`): the text in front of it is read as before, whatever statement follows, and so is what
comes behind a statement that ends as the old one. If what is read then is the statement that was
written, the tree survives being saved (`Spot.survives_iff`).
-/

namespace PixelUnit.Sheet

variable {file : Option String} {k l : List Tag} {q : Prelude} {front us us' : List Token}
  {s : Option Bool} {ss : List (Option Bool)} {p : String} {content content' : Content}
  {raws raws' : String → Raws}

namespace Prelude

/-- What is noted of the open containers behind a statement. -/
def behind (q : Prelude) (s : Option Bool) (ss : List (Option Bool)) : List (Option Bool) :=
  if q.opensBlock then none :: s :: ss else some q.endsInSemicolon :: ss

theorem tag_plain (q : Prelude) (content : Content) (raws : Raws) :
    (q.tag content raws).plain = q.tag content {} := by
  unfold tag
  split <;> rfl

theorem tag_inj {raws raws' : Raws} (h : q.tag content raws = q.tag content' raws') :
    content = content' ∧ raws = raws' := by
  unfold tag at h
  split at h
  · exact Tag.opening.inj h
  · exact Tag.leaf.inj h

/-- A statement asks the one before it for a semicolon. -/
theorem asks_tag (q : Prelude) (hcontent : content.isComment = false) (raws : Raws)
    (semicolon : Bool) (l : List Tag) : Tag.asks semicolon (q.tag content raws :: l) = true := by
  unfold tag
  split
  · rfl
  · rw [Tag.asks, hcontent]
    rfl

theorem text_tag_of_opensBlock (hopen : q.opensBlock = true) (raws : Raws) (a b : Bool) :
    (q.tag content raws).text a = (q.tag content raws).text b := by
  rw [tag, if_pos hopen]
  rfl

end Prelude

namespace Statement

/-- The text of a statement. -/
theorem text_tag (h : Statement us q content raws) (hus : Lexical us) (before : String) :
    (q.tag content (raws before)).text q.endsInSemicolon ++ rawText q.rest =
      before ++ rawText us := by
  cases hopen : q.opensBlock with
  | true =>
    rw [Prelude.tag, if_pos hopen]
    exact h.text_opening hopen hus before
  | false =>
    rw [Prelude.tag, if_neg (by simp [hopen])]
    exact h.text_leaf hopen hus before

end Statement

namespace Builder.Stands

variable {b : Builder} {ls : List Tag}

/-- A statement is read. -/
theorem statement (h : b.Stands (s :: ss) p ls) (hq : Statement us q content raws)
    (hclosed : q.unclosed = false) : ∃ b' : Builder, b.run us = b'.run q.rest ∧
      b'.Stands (q.behind s ss) "" (ls ++ [q.tag content (raws p)]) := by
  cases hopen : q.opensBlock with
  | true =>
    rw [Prelude.tag, Prelude.behind, if_pos hopen, if_pos hopen]
    exact h.block hq hopen hclosed
  | false =>
    rw [Prelude.tag, Prelude.behind, if_neg (by simp [hopen]), if_neg (by simp [hopen])]
    exact h.line hq hopen hclosed

end Builder.Stands

/-- A tag stands for a statement, or for the block that it opens. -/
def Tag.IsStatement (T : Tag) : Prop :=
  (∃ content raws, T = .leaf content raws ∧ content.isComment = false) ∨
    ∃ content raws, T = .opening content raws

namespace ReadsTags

/-- The statement of a tag. -/
theorem exists_statement {T : Tag} (h : ReadsTags (s :: ss) p us (T :: l)) (hT : T.IsStatement)
    (hus : ∀ t ∈ us.head?, ¬(t.kind = .spacing ∨ t.kind = .semicolon)) :
    ∃ q content raws, Statement us q content raws ∧ q.unclosed = false ∧
      T = q.tag content (raws p) ∧ ReadsTags (q.behind s ss) "" q.rest l := by
  have hnone : ∀ content raws brace after semicolon, T ≠ .closing brace after semicolon ∧
      (T = .leaf content raws → content.isComment = false) := by
    intro content raws brace after semicolon
    rcases hT with ⟨content', raws', rfl, hcontent⟩ | ⟨content', raws', rfl⟩
    · exact ⟨nofun, fun h => (Tag.leaf.inj h).1 ▸ hcontent⟩
    · exact ⟨nofun, nofun⟩
  cases h with
  | finish => exact absurd rfl (hnone (.root none) {} _ _ _).1
  | pass ht => exact absurd ht (hus _ rfl)
  | close => exact absurd rfl (hnone (.root none) {} _ _ _).1
  | comment ht => cases (hnone _ _ "" none none).2 rfl
  | @line _ _ _ _ q content raws l hq hopen hclosed h =>
    refine ⟨q, content, raws, hq, hclosed, ?_, ?_⟩
    · rw [Prelude.tag, if_neg (by simp [hopen])]
    · rwa [Prelude.behind, if_neg (by simp [hopen])]
  | @block _ _ _ _ q content raws l hq hopen hclosed h =>
    refine ⟨q, content, raws, hq, hclosed, ?_, ?_⟩
    · rw [Prelude.tag, if_pos hopen]
    · rwa [Prelude.behind, if_pos hopen]

end ReadsTags

/-- Where a statement stands in a sheet: behind the tokens `front`, which are read as the tags `k`
and the text `p`, and with the tags `l` behind it. -/
structure Spot (file : Option String) (k l : List Tag) (q : Prelude) (front : List Token)
    (s : Option Bool) (ss : List (Option Bool)) (p : String) : Prop where
  lexes : ∀ {us : List Token}, Lexes (rawText us).toList us →
    (∀ t, us.head? = some t → t.kind ≠ .spacing) →
    Lexes (rawText (front ++ us)).toList (front ++ us)
  runs : ∀ us : List Token, ∃ b : Builder, (Builder.start file).run (front ++ us) = b.run us ∧
    b.Stands (s :: ss) p (.opening (.root file) {} :: k)
  reads : ReadsTags (q.behind s ss) "" q.rest l
  written : ∀ {content : Content} {raws : Raws} {m : List Tag} {r : String},
    content.isComment = false →
    (q.tag content raws).text (Tag.asks false m) ++ Tag.written false m = p ++ r →
    Tag.written false (.opening (.root file) {} :: (k ++ q.tag content raws :: m)) =
      rawText front ++ r
  text_behind : ∀ (content : Content) (raws : Raws),
    (q.tag content raws).text (Tag.asks false l) ++ Tag.written false l =
      (q.tag content raws).text q.endsInSemicolon ++ rawText q.rest

namespace SourceReading

variable {css : String} {tree : Tree} {T : Tag}

/-- Every statement of a sheet that was read without a fault has its place. -/
theorem exists_spot (htree : (ofSource css file).tree = .ok tree)
    (hfaults : (ofSource css file).faults = [])
    (htags : tree.tags = .opening (.root file) {} :: (k ++ T :: l)) (hT : T.IsStatement) :
    ∃ front us s ss p q content raws, Spot file k l q front s ss p ∧
      Statement us q content raws ∧ q.unclosed = false ∧ T = q.tag content (raws p) ∧
      Lexes css.toList (front ++ us) := by
  obtain ⟨front, back, s, ss, hlex, hcut⟩ := exists_place htree hfaults htags (List.cons_ne_nil _ _)
  obtain ⟨zs, us, rfl, hzs, hus, hhead⟩ := hcut.reads.exists_passed
  obtain ⟨q, content, raws, hq, hclosed, hTq, hreads⟩ := hus.exists_statement hT hhead
  -- no statement follows one that the end of its container ends
  have hs : s ≠ some false := by
    intro hs
    obtain rfl := ReadsTags.eq_nil_of_closesNext hzs (hcut.ends hs)
    exact hq.not_closesNext (hcut.ends hs)
  have hfront : front = [] ∨ EndsClosed front := by
    by_cases hk : k = []
    · exact Or.inl (hcut.nil hk).1
    · exact Or.inr ((hcut.closed hk).resolve_right fun h => hs h.1)
  have hwhole : Lexes css.toList (front ++ zs ++ us) := by rwa [List.append_assoc]
  obtain ⟨y, hy, hback⟩ := hlex.exists_append
  obtain ⟨x, rfl, hx⟩ := hback.exists_append
  rw [hy] at hlex
  have hlexical := hx.lexical
  refine ⟨front ++ zs, us, s, ss, "" ++ rawText zs, q, content, raws,
    ⟨fun {us'} hus' hhead' => ?_, fun us' => ?_, hreads,
      fun {content' raws' m r} hcomment htext => ?_, fun content' raws' => ?_⟩,
    hq, hclosed, hTq, hwhole⟩
  · have hspaced := hback.exchange_passed rfl hzs hus' (hus'.head_isSpacing hhead')
    have hwhole := hlex.exchange_closed rfl hfront hspaced
    simpa using hwhole
  · obtain ⟨b₁, hrun, hb₁⟩ := hcut.runs (Builder.stands_start file) (r := zs ++ us')
      fun h => absurd h hs
    obtain ⟨b, hrun', hb⟩ := hb₁.passAll us' hzs
    exact ⟨b, by rw [List.append_assoc, hrun, hrun'], hb⟩
  · have hk : Tag.written true k = rawText front := by
      by_cases hk : k = []
      · rw [hk, (hcut.nil hk).1]
        rfl
      · rw [hcut.written hk, if_neg hs]
        simp
    rw [Tag.written, Tag.written_append, Tag.written, Prelude.asks_tag q hcomment, hk, htext,
      rawText_append]
    simp [Tag.text, Frame.head, String.append_assoc]
  · have hends : (q.tag content' raws').text (Tag.asks false l) = (q.tag content' raws').text
        q.endsInSemicolon := by
      cases hopen : q.opensBlock with
      | true => exact Prelude.text_tag_of_opensBlock hopen raws' _ _
      | false =>
        rw [Prelude.behind, if_neg (by simp [hopen])] at hreads
        rw [hreads.asks_congr false true, ReadsTags.asks_eq_endsInSemicolon hq hopen
          hlexical.ne_ending hreads (List.prefix_refl l) hreads.ne_nil]
    rw [hends, hreads.written_eq (hlexical.mono hq.rest_suffix.subset) false, String.empty_append]

end SourceReading

namespace Builder

/-- A reading that ends in a tree has read the statement in front. -/
theorem exists_statement_of_run {b : Builder} {t : Token} {r : List Token} {tree : Tree}
    (hnested : Nested b.frame b.outer) (ht : t.kind.StartsStatement)
    (hok : (b.run (t :: r)).result = .ok tree) : ∃ content raws l,
      Statement (t :: r) (Prelude.read [] (t :: r)) content raws ∧
        tree.tags = b.tags ++ (Prelude.read [] (t :: r)).tag content (raws b.pending) :: l := by
  have hrun := run_of_startsStatement (b := b) (r := r) ht
  cases hadd : (b.note (Prelude.read [] (t :: r)).fault?).addStatement
      (Prelude.read [] (t :: r)) with
  | none =>
    rw [hrun, hadd] at hok
    cases hok
  | some b' =>
    have hstep := step_addStatement ht hadd
    rw [hstep.run_eq] at hok
    obtain ⟨l, hl⟩ := exists_tags_of_run (hstep.nested hnested) hok
    rw [hl]
    generalize (Prelude.read [] (t :: r)).rest = rest at hstep
    cases hstep with
    | space h | semicolon h | close h | comment h | atBlock h | atLine h =>
      simp [Token.Kind.StartsStatement, h] at ht
    | rule ht hp hopen =>
      subst hp
      have hq := Statement.rule ht rfl hopen
      refine ⟨_, _, l, hq, ?_⟩
      rw [Prelude.tag, if_pos hopen, List.append_cons]
      exact congrArg (· ++ l) (tags_openBlock b hq _ _ b.pending)
    | declaration ht hp hopen d hd =>
      subst hp
      have hq := Statement.declaration ht rfl hopen d hd
      refine ⟨_, _, l, hq, ?_⟩
      rw [Prelude.tag, if_neg (by simp [hopen]), List.append_cons]
      exact congrArg (· ++ l) (tags_behindLine b hq hopen _ (d.raws b.pending))

end Builder

namespace Spot

variable {t : Tree}

/-- The text of a tree with a statement written anew is read as before up to the statement. -/
theorem run_text (h : Spot file k l q front s ss p) {raws : Raws} {m : List Tag}
    (htags : t.tags = .opening (.root file) {} :: (k ++ q.tag content raws :: m))
    (hcontent : content.isComment = false) (hlex : Lexes (rawText us).toList us)
    (hhead : ∀ t, us.head? = some t → t.kind ≠ .spacing)
    (htext : (q.tag content raws).text (Tag.asks false m) ++ Tag.written false m =
      p ++ rawText us) :
    Lexes (t.text false).toList (front ++ us) ∧
      ∃ b : Builder, (Builder.start file).run (front ++ us) = b.run us ∧
        b.Stands (s :: ss) p (.opening (.root file) {} :: k) := by
  have hwritten : t.text false = rawText (front ++ us) := by
    rw [← Tree.written_tags, htags, rawText_append]
    exact h.written hcontent htext
  exact ⟨hwritten ▸ h.lexes hlex hhead, h.runs us⟩

/-- A tree with a statement written anew survives just if the statement is read as it was
written. -/
theorem survives_iff (h : Spot file k l q front s ss p) (hshows : t.All Tree.ShowsAll)
    (htags : t.tags = .opening (.root file) {} :: (k ++ q.tag content (raws p) :: l))
    (hcontent : content.isComment = false) (hnew : Restates q raws content content' us) :
    t.Survives file ↔ content' = content := by
  obtain ⟨hlex, q', raws', hq', hclosed, hstop, hrest, htext⟩ := hnew
  -- What follows the statement and what it leaves to its parent depend on where its text stops,
  -- which is the same.
  have hopens : q'.opensBlock = q.opensBlock := by rw [Prelude.opensBlock, hstop]; rfl
  have hends : q'.endsInSemicolon = q.endsInSemicolon := by
    rw [Prelude.endsInSemicolon, hstop]; rfl
  have htag : q'.tag content' = q.tag content' := by
    funext raws
    rw [Prelude.tag, hopens]
    rfl
  have hnotes : q'.behind s ss = q.behind s ss := by
    rw [Prelude.behind, hopens, hends]
    rfl
  have hhead : ∀ t, us.head? = some t → t.kind ≠ .spacing := fun t ht hspacing =>
    hq'.not_passed t ht (Or.inl hspacing)
  have hold : (q.tag content (raws p)).text q.endsInSemicolon ++ rawText q.rest =
      p ++ rawText us := by
    have hsame := hq'.text_tag hlex.lexical p
    rwa [htag, hends, hrest, htext] at hsame
  obtain ⟨hlexes, b, hrun, hb⟩ := h.run_text htags hcontent hlex hhead
    ((h.text_behind content (raws p)).trans hold)
  obtain ⟨b₁, hrun₁, hb₁⟩ := hb.statement hq' hclosed
  rw [hnotes] at hb₁
  obtain ⟨tree, hok, -, htree⟩ := h.reads.exists_tree hb₁
  rw [Tree.survives_iff_run hshows hlexes (hrun.trans hrun₁), hrest]
  -- The new statement is the only difference between the two lists of tags.
  have hsame : tree.tags.map Tag.plain = t.tags.map Tag.plain ↔ content' = content := by
    rw [htree, htags, htag]
    simp only [List.map_cons, List.map_append, List.append_assoc, List.cons_append,
      List.append_cancel_left_eq, List.cons.injEq, List.nil_append, Prelude.tag_plain, true_and,
      and_true]
    exact ⟨fun h => (Prelude.tag_inj h).1, fun h => by rw [h]⟩
  constructor
  · rintro ⟨tree', hok', htags'⟩
    obtain rfl : tree = tree' := Except.ok.inj (hok.symm.trans hok')
    exact hsame.1 htags'
  · exact fun h => ⟨tree, hok, hsame.2 h⟩

/-- A tree with a statement written anew survives only if the statement says what is read in
front. -/
theorem exists_statement_of_survives {v : Token} {r : List Token} {raws : Raws}
    (h : Spot file k l q front s ss p) (hshows : t.All Tree.ShowsAll)
    (htags : t.tags = .opening (.root file) {} :: (k ++ q.tag content raws :: l))
    (hcontent : content.isComment = false) (hlex : Lexes (rawText (v :: r)).toList (v :: r))
    (hv : v.kind.StartsStatement)
    (htext : (q.tag content raws).text q.endsInSemicolon ++ rawText q.rest =
      p ++ rawText (v :: r)) (hsurvives : t.Survives file) :
    ∃ raws', Statement (v :: r) (Prelude.read [] (v :: r)) content raws' := by
  obtain ⟨hlexes, b, hrun, hb⟩ := h.run_text htags hcontent hlex (by rintro t ⟨⟩; exact hv.2.1)
    ((h.text_behind content raws).trans htext)
  obtain ⟨tree, hok, hsame⟩ := (Tree.survives_iff_run hshows hlexes hrun).1 hsurvives
  obtain ⟨content', raws', l', hq, htree⟩ := Builder.exists_statement_of_run hb.nested hv hok
  rw [htree, htags, hb.tags, List.map_append, ← List.cons_append, List.map_append,
    List.append_cancel_left_eq, List.map_cons, List.map_cons, Prelude.tag_plain,
    Prelude.tag_plain] at hsame
  have hplain := (List.cons.inj hsame).1
  refine ⟨raws', ?_⟩
  unfold Prelude.tag at hplain
  obtain rfl : content' = content := by
    split at hplain <;> split at hplain <;> cases hplain <;> rfl
  exact hq

end Spot

end PixelUnit.Sheet
