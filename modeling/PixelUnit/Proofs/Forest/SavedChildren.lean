import PixelUnit.Proofs.Forest.Seen
import PixelUnit.Proofs.Sheet.Insertions
import PixelUnit.Proofs.Transform.Replace

/-!
# Saving a sheet with a new child

A comment or a declaration of letters is put among the children of a container, and the sheet is
saved and read again. A comment is read as a child of its own, unless it was put behind a last
statement without a semicolon, which takes it. A declaration is, unless only comments are behind it
and no semicolon is in front of them or asked for by the container: then it takes them
(`NewNode.Fits`, `SourceReading.newNode_survives_iff`).
-/

namespace PixelUnit

open Sheet

/-- A new comment or a new declaration. -/
inductive NewNode where
  | comment (text : String)
  | declaration (prop value : String)

namespace NewNode

/-- What a new node says. -/
def content : NewNode → Content
  | comment text => .comment text
  | declaration prop value => .declaration prop value false

/-- The texts of a new node are words of letters. -/
def OfLetters : NewNode → Prop
  | comment text => IsLetterWord text
  | declaration prop value => IsLetterWord prop ∧ IsLetterWord value

/-- Whether a new node can be put in front of the children `behind`, the last ones of a container
with a note whether a semicolon follows its last child. -/
def Fits (semicolon : Option Bool) (behind : List Sheet.Tree) : NewNode → Prop
  | comment _ => behind = [] → semicolon ≠ some false
  | declaration .. => semicolon = some true ∨ (∃ t ∈ behind, t.isComment = false) ∨
      ∀ content raws ts, behind.head? = some (.node content raws ts) →
        ';' ∈ (raws.before.getD "").toList

end NewNode

namespace Sheet

variable {file : Option String} {css : String} {tree t : Tree} {content content' : Content}
  {raws : Raws} {ts vs : List Tree} {new : NewNode}

section Tags

variable {brace : String} {after : Option String} {semicolon : Option Bool} {l : List Tag}

/-- A container ends behind a statement without a semicolon if no child is behind that. -/
theorem closesOpen_tagsOf_iff :
    ClosesOpen (Tree.tagsOf vs ++ .closing brace after semicolon :: l) ↔
      vs = [] ∧ semicolon = some false := by
  cases vs with
  | nil =>
    constructor
    · rintro ⟨_, _, _, h⟩
      exact ⟨rfl, (Tag.closing.inj (List.cons.inj h).1).2.2⟩
    · rintro ⟨-, rfl⟩
      exact ⟨_, _, _, rfl⟩
  | cons u us =>
    refine iff_of_false ?_ (by simp)
    rintro ⟨brace', after', m, h⟩
    rw [Tree.tagsOf, List.append_assoc] at h
    exact Tree.not_endsNode_tags u _ ⟨_, _, _, _, h⟩

/-- Whether a declaration can be put in front of some children. -/
theorem takesDeclaration_tagsOf_iff (prop value : String) :
    TakesDeclaration (Tree.tagsOf vs ++ .closing brace after semicolon :: l) ↔
      (NewNode.declaration prop value).Fits semicolon vs := by
  have hasks : Tag.asks false (Tree.tagsOf vs ++ .closing brace after semicolon :: l) = true ↔
      semicolon = some true ∨ ∃ t ∈ vs, t.isComment = false := by
    rw [Tag.asks_append, Tree.asks_tagsOf, Tag.asks]
    simp
  rw [TakesDeclaration, hasks, NewNode.Fits, or_assoc]
  refine or_congr_right (or_congr_right' fun hcomments => ?_)
  cases vs with
  | nil => exact iff_of_true (semicolonFirst_closing _ _ _ _) (by simp)
  | cons u us =>
    obtain ⟨content, raws, ws⟩ := u
    have hcomment : content.isComment = true := by
      by_contra hne
      exact hcomments ⟨_, List.mem_cons_self, Bool.eq_false_iff.2 hne⟩
    have hshows : Tree.showsChildren content = false := by
      cases content <;> first | rfl | cases hcomment
    rw [Tree.tagsOf, Tree.tags_of_not_shows hshows]
    constructor
    · rintro h content' raws' ws' ⟨⟩
      exact h _ _ _ rfl
    · rintro h content' raws' m heq
      obtain ⟨rfl, rfl⟩ := Tag.leaf.inj (List.cons.inj heq).1
      exact h _ _ _ rfl

end Tags

namespace SourceReading

/-- A container with a new child is a tree with one more tag. -/
theorem exists_tags_of_replaced {us : List Tree} (htree : (ofSource css file).tree = .ok tree)
    (hfaults : (ofSource css file).faults = [])
    (hshows : Tree.showsChildren content = true)
    (hreplaced : Tree.Replaced (.node content raws (us ++ vs))
      (.node content raws (us ++ .node new.content {} [] :: vs)) tree t) :
    ∃ k l, tree.tags = .opening (.root file) {} ::
        (k ++ (Tree.tagsOf vs ++ .closing content.brace raws.after raws.semicolon :: l)) ∧
      t.tags = .opening (.root file) {} :: (k ++ .leaf new.content {} ::
        (Tree.tagsOf vs ++ .closing content.brace raws.after raws.semicolon :: l)) := by
  have hnew : (Tree.node new.content {} []).tags = [.leaf new.content {}] :=
    Tree.tags_of_not_shows (by cases new <;> rfl) _ _
  obtain ⟨k, l, hk, hk'⟩ := hreplaced.exists_tags
  rw [Tree.tags_of_shows hshows, Tree.tagsOf_append] at hk hk'
  rw [Tree.tagsOf, hnew] at hk'
  obtain ⟨-, m, -, -, hroot⟩ := exists_readsTags htree hfaults
  obtain ⟨k', hk''⟩ : ∃ k', k ++ .opening content raws.front :: Tree.tagsOf us =
      .opening (.root file) {} :: k' := by
    have hstart := hroot.symm.trans hk
    cases k with
    | nil => exact ⟨_, by rw [(List.cons.inj hstart).1]; rfl⟩
    | cons T k => exact ⟨_, by rw [(List.cons.inj hstart).1]; rfl⟩
  refine ⟨k', l, ?_, ?_⟩
  · rw [← List.cons_append, ← hk'', hk]
    simp
  · rw [← List.cons_append, ← hk'', hk']
    simp

/-- A container of a sheet with a new comment or a new declaration survives just if the new node
fits in there. -/
theorem survives_newNode_iff {us : List Tree} (htree : (ofSource css file).tree = .ok tree)
    (hfaults : (ofSource css file).faults = [])
    (hshows : Tree.showsChildren content = true)
    (hend : ∀ path, content = .root path → vs = [] → raws.semicolon = some false → ReadsBrace css)
    (hnew : new.OfLetters)
    (hreplaced : Tree.Replaced (.node content raws (us ++ vs))
      (.node content raws (us ++ .node new.content {} [] :: vs)) tree t) :
    t.Survives file ↔ new.Fits raws.semicolon vs := by
  obtain ⟨k, l, htags, htags'⟩ := exists_tags_of_replaced htree hfaults hshows hreplaced
  obtain ⟨ts, -, hok, -⟩ := exists_lexes htree hfaults
  -- Only a container gets the new node, so still no other node has children.
  have hall : t.All Tree.ShowsAll := hreplaced.showsAll (Reading.showsAll hok) fun h => by
    refine ⟨fun _ => hshows, Tree.allOf_iff.2 fun u hu => ?_⟩
    rcases List.mem_append.1 hu with hu | hu
    · exact Tree.allOf_iff.1 h.2 u (List.mem_append_left _ hu)
    · rcases List.mem_cons.1 hu with rfl | hu
      · exact ⟨fun hne => absurd rfl hne, trivial⟩
      · exact Tree.allOf_iff.1 h.2 u (List.mem_append_right _ hu)
  -- The end of a file counts as open only behind the last child of the sheet itself.
  have hend' :
      ClosesOpen (Tree.tagsOf vs ++ .closing content.brace raws.after raws.semicolon :: l) →
      (Tree.tagsOf vs ++ .closing content.brace raws.after raws.semicolon :: l).tail = [] →
      ReadsBrace css := by
    intro hopen htail
    obtain ⟨rfl, hsemicolon⟩ := closesOpen_tagsOf_iff.1 hopen
    obtain rfl : l = [] := htail
    rw [Tree.tagsOf, List.nil_append] at htags
    obtain ⟨_, _, -, hlast⟩ := Tree.eq_of_tags htags
    have hbrace := (Tag.closing.inj hlast).1
    cases content with
    | root path => exact hend path rfl rfl hsemicolon
    | rule | atRule | declaration | comment =>
      exact absurd hbrace (show "\x7d" ≠ "" by decide)
  -- A comment fits if nothing takes it as its own; a declaration has to be told apart as well.
  cases new with
  | comment text =>
    rw [survives_newComment_iff htree hfaults htags (by simp) hend' hnew hall htags',
      closesOpen_tagsOf_iff, not_and]
    rfl
  | declaration prop value =>
    rw [survives_newDeclaration_iff htree hfaults htags (by simp) hend' hnew.1 hnew.2 hall htags',
      takesDeclaration_tagsOf_iff]

/-- A new comment or a new declaration that is put among the children of a container survives just
if it fits in there. -/
theorem newNode_survives_iff (htree : (ofSource css file).tree = .ok tree)
    (hfaults : (ofSource css file).faults = []) {n : NodeId} (hn : n < tree.size)
    (hview : (Forest.ofTree tree).2.view n = .node content raws ts)
    (hshows : Tree.showsChildren content = true) (index : Int)
    (hend : ∀ path, content = .root path → ts.drop (clampIndex ts.length index) = [] →
      raws.semicolon = some false → ReadsBrace css)
    (hnew : new.OfLetters) :
    ∃ g, Forest.insertNew n index new.content {} (Forest.ofTree tree).2 = .ok () g ∧
      ((g.view 0).Survives file ↔
        new.Fits raws.semicolon (ts.drop (clampIndex ts.length index))) := by
  obtain ⟨-, hsize, hholds⟩ := Forest.ofTree_holds tree
  obtain ⟨tokens, -, hok, -⟩ := exists_lexes htree hfaults
  have hall : tree.All Tree.ShowsAll := Reading.showsAll hok
  obtain ⟨g, hrun, hreplaced⟩ := hholds.view_insertNew hsize hall
    (Forest.consistent_ofTree (hall.mono fun _ _ _ h => h.branches)) (hn.trans_eq hsize.symm) hview
    index
  have hspliced : Tree.Replaced
      (.node content raws (ts.take (clampIndex ts.length index) ++
        ts.drop (clampIndex ts.length index)))
      (.node content raws (ts.take (clampIndex ts.length index) ++
        .node new.content {} [] :: ts.drop (clampIndex ts.length index))) tree (g.view 0) := by
    rw [List.take_append_drop]
    simpa [spliceAt] using hreplaced
  exact ⟨g, hrun, survives_newNode_iff htree hfaults hshows hend hnew hspliced⟩

/-- A sheet with a comment behind a declaration with a semicolon. -/
def commentLastSheet : String :=
  "a\x7bb:c;/*d*/\x7d"

/-- A declaration that is put in behind one with a semicolon survives being saved. -/
theorem newNode_survives_iff_commentLastSheet : ∃ tree g,
    (ofSource commentLastSheet none).tree = .ok tree ∧
    (ofSource commentLastSheet none).faults = [] ∧
    Forest.insertNew 1 1 (.declaration "e" "f" false) {} (Forest.ofTree tree).2 = .ok () g ∧
    (g.view 0).Survives none := by
  obtain ⟨tree, htree, hnode⟩ : ∃ tree, (ofSource commentLastSheet none).tree = .ok tree ∧
      (tree.size, ((Forest.ofTree tree).2.view 1).label) =
        (4, .rule "a", { before := some "", between := some "", after := some "",
                         semicolon := some true }) :=
    exists_of_tree_map (by decide +kernel)
  obtain ⟨hsize, hlabel⟩ := Prod.mk.inj hnode
  obtain ⟨ts, hview⟩ := Tree.exists_of_label hlabel
  have hfaults : (ofSource commentLastSheet none).faults = [] := by decide +kernel
  have hnew : (NewNode.declaration "e" "f").OfLetters := ⟨by decide, by decide⟩
  obtain ⟨g, hrun, hiff⟩ := newNode_survives_iff htree hfaults (by rw [hsize]; decide) hview rfl 1
    nofun hnew
  exact ⟨tree, g, htree, hfaults, hrun, hiff.2 (Or.inl rfl)⟩

/-- A sheet with a declaration without a semicolon. -/
def openDeclarationSheet : String :=
  "a\x7bb:c\x7d"

/-- A comment that is put in behind a declaration without a semicolon does not survive being saved:
the value takes it up. -/
theorem not_newNode_survives_openDeclarationSheet : ∃ tree g,
    (ofSource openDeclarationSheet none).tree = .ok tree ∧
    (ofSource openDeclarationSheet none).faults = [] ∧
    Forest.insertNew 1 1 (.comment "w") {} (Forest.ofTree tree).2 = .ok () g ∧
    ¬(g.view 0).Survives none := by
  obtain ⟨tree, htree, hseen⟩ : ∃ tree, (ofSource openDeclarationSheet none).tree = .ok tree ∧
      (match Forest.insertNew 1 1 (.comment "w") {} (Forest.ofTree tree).2 with
        | .ok _ g => some ((g.view 0).text false, (g.view 0).tags.map Tag.plain)
        | .error .. => none) =
        some ("a\x7bb:c/* w */\x7d", [.opening (.root none) {}, .opening (.rule "a") {},
          .leaf (.declaration "b" "c" false) {}, .leaf (.comment "w") {},
          .closing "\x7d" none none, .closing "" none none]) :=
    exists_of_tree_map (by decide +kernel)
  cases hrun : Forest.insertNew 1 1 (.comment "w") {} (Forest.ofTree tree).2 with
  | error =>
    rw [hrun] at hseen
    cases hseen
  | ok _ g =>
    rw [hrun] at hseen
    obtain ⟨htext, htags⟩ := Prod.mk.inj (Option.some.inj hseen)
    exact ⟨tree, g, htree, by decide +kernel, hrun, Tree.not_survives htext htags
      (m := [.opening (.root none) {}, .opening (.rule "a") {},
        .leaf (.declaration "b" "c" false) {}, .closing "\x7d" none none, .closing "" none none])
      (exists_of_tree_map (by decide +kernel)) (by decide)⟩

end SourceReading

end Sheet

end PixelUnit
