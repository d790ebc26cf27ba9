import PixelUnit.Proofs.Sheet.NewNodes
import PixelUnit.Proofs.Sheet.OpenEnds

/-!
# Nodes put into a sheet

A node that is put between the tags of a sheet that was read without a fault is written between the
tokens in front and those behind (`Gap`), but behind a statement without a semicolon (`OpenEnd`),
which ends in one now if what is behind it asks for that. A comment does not, so the statement takes
it (`SourceReading.survives_newComment_iff`); a declaration does. But a declaration itself may take
the comments behind it (`SourceReading.survives_newDeclaration_iff`).
-/

namespace PixelUnit.Sheet

/-- A place between the tags of a sheet, with the tokens `front` in front of it, which are read as
the tags `k` whatever is put there. -/
structure Gap (file : Option String) (k l : List Tag) (front back : List Token) (s : Option Bool)
    (ss : List (Option Bool)) : Prop where
  reads : ReadsTags (s :: ss) "" back l
  lexes_back : Lexes (rawText back).toList back
  lexes : ∀ {x : List Char} {xs : List Token}, Lexes x xs →
    Lexes ((rawText front).toList ++ x) (front ++ xs)
  runs : ∀ us : List Token, ∃ b : Builder, (Builder.start file).run (front ++ us) = b.run us ∧
    b.Stands (s :: ss) "" (.opening (.root file) {} :: k)
  written : ∀ {m : List Tag}, Tag.asks false m = true ∨ Tag.asks false m = Tag.asks false l →
    Tag.written false (.opening (.root file) {} :: (k ++ m)) =
      rawText front ++ Tag.written false m

namespace SourceReading

variable {css w v : String} {file : Option String} {tree t : Tree} {k l : List Tag}

/-- Every place but behind a statement without a semicolon. -/
theorem exists_gap (htree : (ofSource css file).tree = .ok tree)
    (hfaults : (ofSource css file).faults = [])
    (htags : tree.tags = .opening (.root file) {} :: (k ++ l)) (hne : l ≠ [])
    (hl : ¬ClosesOpen l) : ∃ front back s ss, Gap file k l front back s ss := by
  obtain ⟨front, back, s, ss, hlex, hcut⟩ := exists_place htree hfaults htags hne
  have hs : s ≠ some false := fun hs => hl ((hcut.reads.closesOpen_iff hcut.ends).2 hs)
  obtain ⟨x, hcss, hback⟩ := hlex.exists_append
  have hroot : ∀ m, Tag.written false (.opening (.root file) {} :: (k ++ m)) =
      Tag.written (Tag.asks false m) k ++ Tag.written false m := by
    intro m
    rw [Tag.written, Tag.written_append]
    exact String.empty_append
  refine ⟨front, back, s, ss, hcut.reads, hback.rawText_lexes, fun hxs => ?_, fun us => ?_,
    fun {m} hm => ?_⟩
  · rw [hcss] at hlex
    refine hlex.exchange_closed rfl ?_ hxs
    by_cases hk : k = []
    · exact Or.inl (hcut.nil hk).1
    · exact Or.inr ((hcut.closed hk).resolve_right fun h => hs h.1)
  · exact hcut.runs (Builder.stands_start file) fun h => absurd h hs
  · rw [hroot]
    congr 1
    rcases hm with hm | hm
    · rw [hm]
      by_cases hk : k = []
      · rw [hk, (hcut.nil hk).1]
        rfl
      · rw [hcut.written hk, if_neg hs]
        simp
    · have hold := hroot l
      rw [← htags, Tree.written_tags, text_eq_source htree (by rw [hfaults]; nofun),
        hcut.reads.written_eq hback.lexical false, String.empty_append] at hold
      have hraw : css = rawText front ++ rawText back := by
        rw [← String.toList_inj, ← hlex.rawText_eq, rawText_append]
      rw [hm, (String.append_left_inj _).1 (hold.symm.trans hraw)]

/-- A new comment survives, unless it is put behind a statement without a semicolon. -/
theorem survives_newComment_iff (htree : (ofSource css file).tree = .ok tree)
    (hfaults : (ofSource css file).faults = [])
    (htags : tree.tags = .opening (.root file) {} :: (k ++ l)) (hne : l ≠ [])
    (hend : ClosesOpen l → l.tail = [] → ReadsBrace css) (hw : IsLetterWord w)
    (hshows : t.All Tree.ShowsAll)
    (ht : t.tags = .opening (.root file) {} :: (k ++ .leaf (.comment w) {} :: l)) :
    t.Survives file ↔ ¬ClosesOpen l := by
  have hasks : Tag.asks false (.leaf (.comment w) {} :: l) = Tag.asks false l := rfl
  have hwritten : Tag.written false (.leaf (.comment w) {} :: l) =
      (Token.newComment w).raw ++ Tag.written false l := by
    rw [Tag.written, text_comment_default]
  by_cases hl : ClosesOpen l
  · refine iff_of_false (fun hsurvives => ?_) (not_not_intro hl)
    obtain ⟨front, rest, ss, hopen⟩ := exists_openEnd htree hfaults htags hl (hend hl)
    have hcomment := hw.lexes_newComment hopen.lexes_rest
    have hcloses : Closes ((Token.newComment w).raw.toList ++ (rawText rest).toList) :=
      hcomment.closes (by rintro u ⟨⟩; simp [Token.Kind.Separates, Token.newComment, Token.of])
    have hhead := hcomment.head_isSpacing (by rintro u ⟨⟩; simp [Token.newComment, Token.of])
    have hlex := hopen.lexes hcloses hhead hcomment
    have htext : (t.text false).toList = (rawText front).toList ++
        ((Token.newComment w).raw.toList ++ (rawText rest).toList) := by
      rw [← Tree.written_tags, ht, hopen.written, hasks, hl.asks_eq, hwritten,
        hopen.reads.written_eq hopen.lexes_rest.lexical false]
      simp
    -- the statement takes the comment, so there are fewer tags
    obtain ⟨b, k', hrun, hb, hlen⟩ := hopen.comment (u := .newComment w) rfl hopen.closes
    obtain ⟨tree', hok, -, htags'⟩ := hopen.reads.exists_tree hb
    rw [← htext] at hlex
    obtain ⟨tree'', hok', hsame⟩ := (Tree.survives_iff_run hshows hlex hrun).1 hsurvives
    obtain rfl := Except.ok.inj (hok'.symm.trans hok)
    have hcount := congrArg List.length hsame
    simp only [htags', ht, List.length_map, List.length_append, List.length_cons] at hcount
    omega
  · refine iff_of_true ?_ hl
    obtain ⟨front, back, s, ss, hgap⟩ := exists_gap htree hfaults htags hne hl
    obtain ⟨b, hrun, hb⟩ := hgap.runs (.newComment w :: back)
    have hlex := hgap.lexes (hw.lexes_newComment hgap.lexes_back)
    have htext : (t.text false).toList = (rawText front).toList ++
        ((Token.newComment w).raw.toList ++ (rawText back).toList) := by
      rw [← Tree.written_tags, ht, hgap.written (Or.inr hasks), hwritten,
        hgap.reads.written_eq hgap.lexes_back.lexical false]
      simp
    obtain ⟨tree', hok, hsame⟩ := hb.exists_newComment hw hgap.reads rfl
    rw [← htext] at hlex
    exact (Tree.survives_iff_run hshows hlex hrun).2 ⟨tree', hok, by rw [hsame, ht]; rfl⟩

/-- A tree whose text is read as before up to a new declaration survives just if the declaration
takes no comment. -/
theorem survives_iff_takesDeclaration {b : Builder} {us ts : List Token} {s s' : Option Bool}
    {ss : List (Option Bool)} {p : String} (hv : IsLetterWord v) (hshows : t.All Tree.ShowsAll)
    (ht : t.tags = .opening (.root file) {} :: (k ++ .leaf (.declaration w v false) {} :: l))
    (hlex : Lexes (t.text false).toList us) (hrun : (Builder.start file).run us =
      b.run (newDeclaration w v (Tag.asks false l) ++ ts))
    (hb : b.Stands (s :: ss) p (.opening (.root file) {} :: k))
    (hreads : ReadsTags (s' :: ss) "" ts l) (hts : Lexical ts) :
    t.Survives file ↔ TakesDeclaration l := by
  obtain ⟨tree, hok, hiff⟩ := hb.exists_newDeclaration w hv hreads hts
  rw [Tree.survives_iff_run hshows hlex hrun, ← hiff, ht]
  constructor
  · rintro ⟨tree', hok', hsame⟩
    obtain rfl := Except.ok.inj (hok'.symm.trans hok)
    exact hsame
  · exact fun hsame => ⟨tree, hok, hsame⟩

/-- A new declaration survives, unless comments are behind it without a semicolon. -/
theorem survives_newDeclaration_iff (htree : (ofSource css file).tree = .ok tree)
    (hfaults : (ofSource css file).faults = [])
    (htags : tree.tags = .opening (.root file) {} :: (k ++ l)) (hne : l ≠ [])
    (hend : ClosesOpen l → l.tail = [] → ReadsBrace css) (hw : IsLetterWord w)
    (hv : IsLetterWord v) (hshows : t.All Tree.ShowsAll)
    (ht : t.tags = .opening (.root file) {} :: (k ++ .leaf (.declaration w v false) {} :: l)) :
    t.Survives file ↔ TakesDeclaration l := by
  have hasks : Tag.asks false (.leaf (.declaration w v false) {} :: l) = true := rfl
  have hwritten : Tag.written false (.leaf (.declaration w v false) {} :: l) =
      rawText (newDeclaration w v (Tag.asks false l)) ++ Tag.written false l := by
    rw [Tag.written, text_declaration_default]
  -- the declaration with what is behind it
  have hlexes : ∀ {ss : List (Option Bool)} {s : Option Bool} {ts : List Token},
      ReadsTags (s :: ss) "" ts l → Lexes (rawText ts).toList ts →
      Lexes ((rawText (newDeclaration w v (Tag.asks false l))).toList ++ (rawText ts).toList)
        (newDeclaration w v (Tag.asks false l) ++ ts) := fun hreads hts =>
    lexes_newDeclaration hw hv _ hts fun hfalse => hts.closes (hreads.separates hfalse)
  by_cases hl : ClosesOpen l
  · obtain ⟨front, rest, ss, hopen⟩ := exists_openEnd htree hfaults htags hl (hend hl)
    have hsemicolon : Lexes (';' :: ([] ++ _)) (.of .semicolon [';'] :: _) :=
      .cons (t := []) rfl (hlexes hopen.reads hopen.lexes_rest)
    have hlex := hopen.lexes (closes_of_barrier (Or.inr (Or.inl rfl)) _)
      (by rintro d ⟨⟩; rfl) hsemicolon
    have htext : (t.text false).toList = (rawText front).toList ++ (';' :: ([] ++
        ((rawText (newDeclaration w v (Tag.asks false l))).toList ++ (rawText rest).toList))) := by
      rw [← Tree.written_tags, ht, hopen.written, hasks, if_pos rfl, hwritten,
        hopen.reads.written_eq hopen.lexes_rest.lexical false]
      simp
    obtain ⟨b, hrun, hb⟩ := hopen.semicolon (u := .of .semicolon [';'])
      (newDeclaration w v (Tag.asks false l) ++ rest) rfl
    rw [← htext] at hlex
    exact survives_iff_takesDeclaration hv hshows ht hlex hrun hb hopen.reads
      hopen.lexes_rest.lexical
  · obtain ⟨front, back, s, ss, hgap⟩ := exists_gap htree hfaults htags hne hl
    have hlex := hgap.lexes (hlexes hgap.reads hgap.lexes_back)
    have htext : (t.text false).toList = (rawText front).toList ++
        ((rawText (newDeclaration w v (Tag.asks false l))).toList ++ (rawText back).toList) := by
      rw [← Tree.written_tags, ht, hgap.written (Or.inl hasks), hwritten,
        hgap.reads.written_eq hgap.lexes_back.lexical false]
      simp
    obtain ⟨b, hrun, hb⟩ := hgap.runs (newDeclaration w v (Tag.asks false l) ++ back)
    rw [← htext] at hlex
    exact survives_iff_takesDeclaration hv hshows ht hlex hrun hb hgap.reads
      hgap.lexes_back.lexical

end SourceReading

end PixelUnit.Sheet
