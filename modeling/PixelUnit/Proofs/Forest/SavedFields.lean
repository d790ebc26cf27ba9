import PixelUnit.Proofs.Forest.Seen
import PixelUnit.Proofs.Sheet.OpenBrackets
import PixelUnit.Proofs.Transform.Replace

/-!
# Saving a sheet with a new field

A field of a node is set to a word of letters, and the sheet is saved and read again. What is read
is the tree as it was changed (`SourceReading.field_survives`) for every selector; for parameters
with white space in front of them; and for a property or a value if the brackets in the other one of
the two are closed there (`Field.TakesWord`). Otherwise it is another tree, but for a value at the
end of a sheet.
-/

namespace PixelUnit

open Sheet

/-- A field of a node that is a text. -/
inductive Field where
  | prop
  | value
  | selector
  | params
deriving DecidableEq

namespace Field

/-- The attribute of a field. -/
def toAttribute (w : String) : Field → Attribute
  | prop => .prop w
  | value => .value w
  | selector => .selector w
  | params => .params w

/-- Whether a node is written so that a word can take the place of a field. -/
def TakesWord (raws : Raws) : Field → Content → Prop
  | prop, .declaration _ v important =>
    Balanced (Tree.writtenValue raws v ++ Tree.valueEnd raws important false)
  | value, .declaration p _ _ => Balanced (p ++ raws.between.getD "")
  | params, .atRule .. => raws.afterName ≠ some ""
  | _, _ => True

/-- A statement stays one of its kind. -/
theorem kept_of_setIn? {field : Field} {w : String} {content content' : Content}
    (h : (field.toAttribute w).setIn? content = some content') :
    Tree.showsChildren content' = Tree.showsChildren content ∧ content'.brace = content.brace ∧
      content.isComment = false ∧ content'.isComment = false ∧ ∀ file, content ≠ .root file := by
  cases field <;> cases content <;> cases h
  · exact ⟨rfl, rfl, rfl, rfl, nofun⟩
  · exact ⟨rfl, rfl, rfl, rfl, nofun⟩
  · exact ⟨rfl, rfl, rfl, rfl, nofun⟩
  · next body => cases body <;> exact ⟨rfl, rfl, rfl, rfl, nofun⟩

end Field

namespace Sheet

variable {file : Option String} {css w : String} {tree t : Tree} {content content' : Content}
  {raws : Raws} {ts : List Tree} {field : Field}

/-- The tag of a node, or the one at its start. -/
def Tree.startTag (content : Content) (raws : Raws) : Tag :=
  if showsChildren content then .opening content raws.front else .leaf content raws

/-- A node with another text in the place of a field is a tree with another tag. -/
theorem Tree.Replaced.exists_startTag (h : Replaced (.node content raws ts) (.node content' raws ts)
    tree t) (hshows : showsChildren content' = showsChildren content)
    (hbrace : content'.brace = content.brace) :
    ∃ k l, tree.tags = k ++ startTag content raws :: l ∧
      t.tags = k ++ startTag content' raws :: l := by
  obtain ⟨k, l, hk, hk'⟩ := h.exists_tags
  rw [hk, hk', startTag, startTag, hshows]
  cases hcontent : showsChildren content with
  | true =>
    rw [tags_of_shows hcontent, tags_of_shows (hshows.trans hcontent), hbrace]
    exact ⟨k, _, rfl, rfl⟩
  | false =>
    rw [tags_of_not_shows hcontent, tags_of_not_shows (hshows.trans hcontent)]
    exact ⟨k, l, rfl, rfl⟩

/-- A tree in which a node was replaced by itself is the same. -/
theorem Tree.Replaced.eq_of_eq {s s' : Tree} (h : Replaced s s' tree t) (hs : s = s') :
    t = tree := by
  induction h with
  | top => exact hs.symm
  | inside _ _ ih => rw [ih]

theorem Tree.startTag_ne_root (h : ∀ file, content ≠ .root file) :
    startTag content raws ≠ .opening (.root file) {} := by
  unfold startTag
  split
  · exact fun heq => h file (Tag.opening.inj heq).1
  · exact nofun

/-- The tag at the start of a node that is no comment is that of a statement. -/
theorem Tree.isStatement_startTag (h : content.isComment = false) :
    (startTag content raws).IsStatement := by
  unfold startTag
  split
  · exact Or.inr ⟨_, _, rfl⟩
  · exact Or.inl ⟨_, _, rfl, h⟩

/-- What stands behind the name of an at-rule does not depend on what stands before it. -/
theorem Statement.afterName_eq {us : List Token} {q : Prelude} {raws : String → Raws}
    (h : Statement us q content raws) (before before' : String) :
    (raws before).afterName = (raws before').afterName := by
  cases h <;> rfl

theorem IsLetterWord.ne_empty (hw : IsLetterWord w) : w ≠ "" := by
  rintro rfl
  exact hw.1 rfl

/-- The start of a node is the start of a statement that says the same, and stays so if the node
says something else of its kind. -/
theorem Tree.startTag_eq {q : Prelude} {content₂ : Content} {raws₂ : Raws}
    (h : startTag content raws = q.tag content₂ raws₂)
    (hshows : showsChildren content' = showsChildren content) :
    content₂ = content ∧ startTag content' raws = q.tag content' raws₂ ∧
      raws₂.afterName = raws.afterName ∧ (showsChildren content = false → raws₂ = raws) := by
  unfold startTag Prelude.tag at *
  rw [hshows]
  split at h <;> split at h <;> cases h
  · next hcontent hopen =>
    rw [if_pos hcontent, if_pos hopen]
    exact ⟨rfl, rfl, rfl, fun hnone => absurd hcontent (by simp [hnone])⟩
  · next hcontent hopen =>
    rw [if_neg hcontent, if_neg hopen]
    exact ⟨rfl, rfl, rfl, fun _ => rfl⟩

/-- Whether a sheet ends in a statement without a semicolon. -/
def Tree.EndsOpen (tree : Tree) : Prop :=
  ∃ content raws ts, tree = .node content raws ts ∧ raws.semicolon = some false

/-- Where nothing stands behind a statement, the sheet ends in it. -/
theorem Spot.endsOpen {k l : List Tag} {q : Prelude} {front : List Token} {s : Option Bool}
    {ss : List (Option Bool)} {p : String} (h : Spot file k l q front s ss p) {T : Tag}
    (hnone : q.stop.toList ++ q.rest = [])
    (htags : tree.tags = .opening (.root file) {} :: (k ++ T :: l)) : tree.EndsOpen := by
  obtain ⟨hstop, hrest⟩ := List.append_eq_nil_iff.1 hnone
  have hreads := h.reads
  have hbehind : q.behind s ss = some false :: ss := by
    rw [Option.toList_eq_nil_iff] at hstop
    rw [Prelude.behind, Prelude.opensBlock, Prelude.endsInSemicolon, hstop]
    rfl
  rw [hrest, hbehind] at hreads
  cases hreads with
  | line hq | block hq => cases hq
  | finish =>
    rw [List.append_cons k] at htags
    obtain ⟨raws, ts, rfl, hlast⟩ := Tree.eq_of_tags htags
    exact ⟨_, raws, ts, rfl, (Tag.closing.inj hlast).2.2.symm⟩

namespace SourceReading

/-- The tree of a sheet that was read without a fault survives as it is. -/
theorem survives (htree : (ofSource css file).tree = .ok tree)
    (hfaults : (ofSource css file).faults = []) : tree.Survives file := by
  have htext := text_eq_source htree (by rw [hfaults]; nofun)
  exact ⟨tree, by rwa [htext], rfl⟩

/-- All children in a sheet that was read without a fault are written. -/
theorem showsAll (htree : (ofSource css file).tree = .ok tree)
    (hfaults : (ofSource css file).faults = []) : tree.All Tree.ShowsAll := by
  obtain ⟨ts, -, hok, -⟩ := exists_lexes htree hfaults
  exact Reading.showsAll hok

/-- What is saved is read as it was changed if the node is written so that it can take the word, and
else it is not. -/
theorem survives_of_replaced (htree : (ofSource css file).tree = .ok tree)
    (hfaults : (ofSource css file).faults = []) (hw : IsLetterWord w)
    (hreplaced : Tree.Replaced (.node content raws ts) (.node content' raws ts) tree t)
    (hset : (field.toAttribute w).setIn? content = some content') :
    (field.TakesWord raws content → t.Survives file) ∧
      (t.Survives file → field.TakesWord raws content ∨ content' = content ∨
        field = .value ∧ tree.EndsOpen) := by
  obtain ⟨hshows, hbrace, hcomment, hcomment', hroot⟩ := Field.kept_of_setIn? hset
  obtain ⟨k', l, htags, htags'⟩ := hreplaced.exists_startTag hshows hbrace
  -- The tag of the sheet itself is in front of that of the node: the root has no field.
  obtain ⟨k, rfl⟩ : ∃ k, k' = .opening (.root file) {} :: k := by
    obtain ⟨-, l', -, -, hstart⟩ := exists_readsTags htree hfaults
    rw [htags] at hstart
    cases k' with
    | nil => exact absurd (List.cons.inj hstart).1 (Tree.startTag_ne_root hroot)
    | cons T k => exact ⟨k, by rw [(List.cons.inj hstart).1]⟩
  have hall' : t.All Tree.ShowsAll := hreplaced.showsAll (showsAll htree hfaults) fun hnode =>
    ⟨fun hne => hshows.trans (hnode.1 hne), hnode.2⟩
  -- What stands at the place of the node decides, so the node is written anew there.
  obtain ⟨front, us, s, ss, p, q, content₂, raws₂, hspot, hq, hclosed, hT, hwhole⟩ :=
    exists_spot htree hfaults htags (Tree.isStatement_startTag hcomment)
  obtain ⟨cs, -, hlex⟩ := hwhole.exists_append
  obtain ⟨rfl, htag, hafter, hraws⟩ := Tree.startTag_eq hT hshows
  rw [htag] at htags'
  -- Each field has its own way to be read again.
  cases field with
  | prop =>
    cases content₂ <;> cases hset
    obtain rfl := hraws rfl
    have hiff := hspot.survives_prop_iff hq hclosed hlex hall' hw htags'
    exact ⟨hiff.2, fun h => Or.inl (hiff.1 h)⟩
  | value =>
    cases content₂ <;> cases hset
    obtain rfl := hraws rfl
    next value _ =>
    by_cases hne : w = value
    · subst hne
      rw [hreplaced.eq_of_eq rfl]
      exact ⟨fun _ => survives htree hfaults, fun _ => Or.inr (Or.inl rfl)⟩
    · obtain ⟨htakes, honly⟩ := hspot.survives_value hq hlex hall' hw hne htags'
      exact ⟨htakes, fun h => (honly h).imp_right fun hnone =>
        Or.inr ⟨rfl, hspot.endsOpen hnone htags⟩⟩
  | selector =>
    cases content₂ <;> cases hset
    obtain ⟨us', hnew⟩ := hq.restates_selector hlex hw
    exact ⟨fun _ => (hspot.survives_iff hall' htags' rfl hnew).2 rfl, fun _ => Or.inl trivial⟩
  | params =>
    cases content₂ <;> cases hset
    rw [hq.afterName_eq p ""] at hafter
    show (raws.afterName ≠ some "" → _) ∧ (_ → raws.afterName ≠ some "" ∨ _)
    rw [← hafter]
    by_cases hspace : (raws₂ "").afterName = some ""
    · obtain ⟨us', hnew⟩ := hq.restates_name hlex hspace hw
      refine ⟨absurd hspace, fun h => ?_⟩
      have hsame := (hspot.survives_iff hall' htags' rfl hnew).1 h
      exact absurd (Content.atRule.inj hsame).2.1.symm hw.ne_empty
    · obtain ⟨us', hnew⟩ := hq.restates_params hlex hspace hw
      exact ⟨fun _ => (hspot.survives_iff hall' htags' rfl hnew).2 rfl, fun _ => Or.inl hspace⟩

/-- A word in the place of a field of a node survives if the node is written so that it can take it.
It survives only then, but for a value at the end of a sheet, and for a word that is there
already. -/
theorem field_survives (htree : (ofSource css file).tree = .ok tree)
    (hfaults : (ofSource css file).faults = []) {n : NodeId} (hn : n < tree.size)
    (hview : (Forest.ofTree tree).2.view n = .node content raws ts) (hw : IsLetterWord w)
    (hset : (field.toAttribute w).setIn? content = some content') :
    ∃ g, Forest.setAttribute n (field.toAttribute w) (Forest.ofTree tree).2 = .ok () g ∧
      (field.TakesWord raws content → (g.view 0).Survives file) ∧
      ((g.view 0).Survives file → field.TakesWord raws content ∨ content' = content ∨
        field = .value ∧ tree.EndsOpen) := by
  obtain ⟨-, hsize, hholds⟩ := Forest.ofTree_holds tree
  obtain ⟨g, hrun, hreplaced⟩ := hholds.view_setAttribute hsize (showsAll htree hfaults)
    (hn.trans_eq hsize.symm) hview hset
  exact ⟨g, hrun, survives_of_replaced htree hfaults hw hreplaced hset⟩

/-- A sheet with a semicolon in a bracket, in a value. -/
def bracketSheet : String :=
  "a\x7bb:(c;d) !important\x7d"

/-- A new property survives being saved, although there is a semicolon in a bracket of the value. -/
theorem field_survives_bracketSheet : ∃ tree g, (ofSource bracketSheet none).tree = .ok tree ∧
    (ofSource bracketSheet none).faults = [] ∧
    Forest.setAttribute 2 (.prop "e") (Forest.ofTree tree).2 = .ok () g ∧
    (g.view 0).Survives none := by
  obtain ⟨tree, htree, hnode⟩ : ∃ tree, (ofSource bracketSheet none).tree = .ok tree ∧
      (tree.size, ((Forest.ofTree tree).2.view 2).label) =
        (3, .declaration "b" "(c;d)" true,
          { before := some ""
            between := some ":"
            trailing := some ""
            important := some " !important" }) :=
    exists_of_tree_map (by decide +kernel)
  obtain ⟨hsize, hlabel⟩ := Prod.mk.inj hnode
  obtain ⟨ts, hview⟩ := Tree.exists_of_label hlabel
  have hfaults : (ofSource bracketSheet none).faults = [] := by decide +kernel
  have hset : (Field.prop.toAttribute "e").setIn? (.declaration "b" "(c;d)" true) =
      some (.declaration "e" "(c;d)" true) := rfl
  obtain ⟨g, hrun, htakes, -⟩ := field_survives htree hfaults (by rw [hsize]; decide) hview
    (by decide) hset
  have hbalanced : Balanced "(c;d) !important" := by decide +kernel
  exact ⟨tree, g, htree, hfaults, hrun, htakes hbalanced⟩

/-- A sheet with parameters that need no white space in front of them. -/
def closeParamsSheet : String :=
  "@media(x)\x7b\x7d"

/-- Parameters directly behind a name do not survive as a word: the name takes it up. -/
theorem not_field_survives_closeParamsSheet : ∃ tree g,
    (ofSource closeParamsSheet none).tree = .ok tree ∧
    (ofSource closeParamsSheet none).faults = [] ∧
    Forest.setAttribute 1 (.params "w") (Forest.ofTree tree).2 = .ok () g ∧
    ¬(g.view 0).Survives none := by
  obtain ⟨tree, htree, hseen⟩ : ∃ tree, (ofSource closeParamsSheet none).tree = .ok tree ∧
      ((((Forest.ofTree tree).2.update 1 (·.set (.params "w"))).view 0).text false,
        (((Forest.ofTree tree).2.update 1 (·.set (.params "w"))).view 0).tags.map Tag.plain) =
        ("@mediaw\x7b\x7d", [.opening (.root none) {}, .opening (.atRule "media" "w" true) {},
          .closing "\x7d" none none, .closing "" none none]) :=
    exists_of_tree_map (by decide +kernel)
  obtain ⟨htext, htags⟩ := Prod.mk.inj hseen
  exact ⟨tree, _, htree, by decide +kernel, rfl, Tree.not_survives htext htags
    (m := [.opening (.root none) {}, .opening (.atRule "mediaw" "" true) {},
      .closing "\x7d" none none, .closing "" none none])
    (exists_of_tree_map (by decide +kernel)) (by decide)⟩

end SourceReading

end Sheet

end PixelUnit
