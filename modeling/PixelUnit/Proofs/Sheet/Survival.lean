import PixelUnit.Proofs.Sheet.Origins
import PixelUnit.Proofs.Sheet.TagCuts

/-!
# Sheets that survive a save

A tree survives being saved if its text is read as a tree that says the same (`Tree.Survives`). Both
texts, that of the tree that was read and that of the tree as it is now, are read alike up to the
place where the trees differ (`SourceReading.exists_place`), and what was read up to there is in
front of whatever is read in the end (`Builder.exists_tags_of_run`). So whether a tree survives is
up to what is read behind that place (`Tree.survives_iff_run`).
-/

namespace PixelUnit.Sheet

/-- A tree survives being saved: what is written is read as a tree that says the same. -/
def Tree.Survives (file : Option String) (t : Tree) : Prop :=
  ∃ tree, (SourceReading.ofSource (t.text false) file).tree = .ok tree ∧ tree.plain = t.plain

/-! ## What has been read -/

namespace Builder

variable {b b' : Builder} {ts ts' : List Token} {tree : Tree}

/-- A step adds tags. -/
theorem Step.exists_tags (h : Step b ts b' ts') (hnested : Nested b.frame b.outer) :
    ∃ e, b'.tags = b.tags ++ e := by
  cases h with
  | space | semicolon => exact ⟨[], (List.append_nil _).symm⟩
  | @close t _ f fs ht hb => exact ⟨_, tags_closeBlock hnested hb t⟩
  | @comment t _ ht => exact ⟨_, tags_comment b t⟩
  | @atBlock t r gap p ht hgap hp hopen =>
    subst hgap
    have hq := Statement.atRule ht hp
    rw [hopen] at hq
    exact ⟨_, tags_openBlock b hq _ _ _⟩
  | @atLine t r gap p ht hgap hp hopen =>
    subst hgap
    have hq := Statement.atRule ht hp
    rw [hopen] at hq
    exact ⟨_, tags_behindLine b hq hopen _ _⟩
  | rule ht hp hopen => exact ⟨_, tags_openBlock b (.rule ht hp hopen) _ _ _⟩
  | declaration ht hp hopen d hd =>
    exact ⟨_, tags_behindLine b (.declaration ht hp hopen d hd) hopen _ _⟩

/-- Closing what is open adds tags. -/
theorem exists_tags_closeAll : ∀ {fs : List Frame} {f : Frame} (after : String), Nested f fs →
    ∃ l, (closeAll f after fs).tags = stackTags (f :: fs) ++ l
  | [], f, after, hnested => by
    obtain ⟨hshows, -⟩ := hnested.shows
    exact ⟨_, Frame.tags_close hshows after⟩
  | g :: gs, f, after, hnested => by
    obtain ⟨hshows, -⟩ := hnested.1.shows
    obtain ⟨l, hl⟩ := exists_tags_closeAll (f := g.add (f.close after)) ""
      (hnested.2.of_content_eq rfl)
    refine ⟨.closing f.content.brace (some after) f.raws.semicolon :: l, ?_⟩
    rw [closeAll, hl, stackTags, Frame.tags_add, Frame.tags_close hshows, stackTags, stackTags]
    simp

/-- What has been read is in front of what is read in the end. -/
theorem exists_tags_of_run (hnested : Nested b.frame b.outer)
    (hok : (b.run ts).result = .ok tree) : ∃ l, tree.tags = b.tags ++ l := by
  refine run_induction (P := fun b ts => Nested b.frame b.outer → (b.run ts).result = .ok tree →
    ∃ l, tree.tags = b.tags ++ l) ?_ ?_ b ts hok hnested hok
  · intro b ts pos _ hrun hnested hok
    rw [hrun] at hok
    cases hok
    exact exists_tags_closeAll b.pending hnested
  · intro b ts b' ts' hstep ih hnested hok
    rw [hstep.run_eq] at hok
    obtain ⟨e, he⟩ := hstep.exists_tags hnested
    obtain ⟨l, hl⟩ := ih (hstep.nested hnested) hok
    exact ⟨e ++ l, by rw [hl, he, List.append_assoc]⟩

end Builder

/-! ## Sources -/

/-- All children in a tree that was read are written. -/
theorem Reading.showsAll {ts : List Token} {file : Option String} {tree : Tree}
    (hok : (Reading.ofTokens ts file).result = .ok tree) : tree.All Tree.ShowsAll :=
  (Reading.all_fromTokens hok).1.mono fun _ _ _ h => h.showsAll

namespace SourceReading

variable {css : String} {file : Option String} {tree : Tree} {ts : List Token} {k l : List Tag}

/-- A source is read as its tokens are. -/
theorem tree_eq_ok_iff (hlex : Lexes css.toList ts) :
    (ofSource css file).tree = .ok tree ↔ (Reading.ofTokens ts file).result = .ok tree := by
  obtain ⟨hfailure, -, hbare⟩ := hlex.scanSource
  have halike := Reading.ofTokens_map_bare (scanSource css).tokens file
  rw [hbare] at halike
  have htree :
      (ofSource css file).tree = (Reading.ofTokens (scanSource css).tokens file).result := by
    simp only [SourceReading.tree, ofSource, hfailure]
    rfl
  rw [htree]
  exact ⟨halike.ok, halike.symm.ok⟩

/-- A sheet that is read without a fault is read flat. -/
theorem exists_readsTags (htree : (ofSource css file).tree = .ok tree)
    (hfaults : (ofSource css file).faults = []) :
    ∃ ts l, Lexes css.toList ts ∧ ReadsTags [none] "" ts l ∧
      tree.tags = .opening (.root file) {} :: l := by
  obtain ⟨ts, hlex, hok, hnone⟩ := exists_lexes htree hfaults
  obtain ⟨l, hl, htags⟩ := Builder.exists_readsTags (b := .start file) ⟨file, rfl⟩
    hlex.lexical.ne_ending hok hnone
  exact ⟨ts, l, hlex, hl, htags⟩

/-- A sheet that is read without a fault can be cut at every place in its tree. -/
theorem exists_place (htree : (ofSource css file).tree = .ok tree)
    (hfaults : (ofSource css file).faults = [])
    (htags : tree.tags = .opening (.root file) {} :: (k ++ l)) (hl : l ≠ []) :
    ∃ front back s ss, Lexes css.toList (front ++ back) ∧
      ReadsTags.Cut [none] "" k l front back s ss := by
  obtain ⟨ts, m, hlex, hm, htags'⟩ := exists_readsTags htree hfaults
  obtain ⟨-, rfl⟩ := List.cons.inj (htags'.symm.trans htags)
  obtain ⟨front, back, s, ss, rfl, hcut⟩ := hm.exists_cut hl (fun _ => rfl)
    (.of_not_mem (by decide) _) hlex.lexical
  exact ⟨front, back, s, ss, hlex, hcut⟩

end SourceReading

namespace Tree

variable {file : Option String} {t : Tree} {ts us : List Token} {b : Builder}

/-- A tree survives just if the reading of its text ends in a tree with the same tags. -/
theorem survives_iff_run (hshows : t.All ShowsAll) (hlex : Lexes (t.text false).toList ts)
    (hrun : (Builder.start file).run ts = b.run us) :
    t.Survives file ↔ ∃ tree, (b.run us).result = .ok tree ∧
      tree.tags.map Tag.plain = t.tags.map Tag.plain := by
  refine exists_congr fun tree => ?_
  rw [SourceReading.tree_eq_ok_iff hlex, Reading.ofTokens, hrun]
  refine and_congr_right fun hok => plain_eq_iff ?_ hshows
  rw [← hrun] at hok
  exact Reading.showsAll hok

/-- A tree does not survive if its text is read as a tree with other tags. -/
theorem not_survives {text : String} {l m : List Tag} (htext : t.text false = text)
    (hl : t.tags.map Tag.plain = l) (hread : ∃ tree,
      (SourceReading.ofSource text file).tree = .ok tree ∧ tree.tags.map Tag.plain = m)
    (hne : l ≠ m) : ¬t.Survives file := by
  rintro ⟨tree, htree, hplain⟩
  obtain ⟨tree', htree', hm⟩ := hread
  rw [htext, htree'] at htree
  obtain rfl := Except.ok.inj htree
  have hsame := congrArg Tree.tags hplain
  rw [tags_plain, tags_plain, hm, hl] at hsame
  exact hne hsame.symm

end Tree

end PixelUnit.Sheet
