import PixelUnit.Proofs.Sheet.RoundTrip
import PixelUnit.Proofs.Sheet.Trees

/-!
# Sheets written flat

A tree is written as a list of tags: every node without children is one, every other node has one at
its start and one at its end (`Tree.tags`). Putting a node among others, or changing what one says,
changes the list in one place (`Tree.Replaced.exists_tags`), and the text of a list in two parts is
the text of its parts, but for the semicolon of a statement that ends the first one
(`Tag.written_append`).

What the nodes of two trees say, and how the nodes stand in each other, is the same exactly if their
tags are the same up to how they were written (`Tree.plain_eq_iff`).
-/

namespace PixelUnit.Sheet

/-- A node without children, or the start or the end of a node with children. -/
inductive Tag where
  | leaf (content : Content) (raws : Raws)
  | opening (content : Content) (raws : Raws)
  | closing (brace : String) (after : Option String) (semicolon : Option Bool)
deriving DecidableEq

/-- How a node is written up to its first child. -/
def Raws.front (raws : Raws) : Raws :=
  { raws with after := none, semicolon := none }

/-- What is written at the end of a node with children. -/
def Content.brace : Content → String
  | .root _ => ""
  | _ => "\x7d"

namespace Tag

/-- A tag up to how it was written. -/
def plain : Tag → Tag
  | leaf content _ => leaf content {}
  | opening content _ => opening content {}
  | closing brace _ _ => closing brace none none

/-- The text of a tag; a node that can end in a semicolon does so if it is asked to. -/
def text (semicolon : Bool) : Tag → String
  | leaf content raws => (Tree.node content raws []).text semicolon
  | opening content raws => Frame.head ⟨content, raws, []⟩
  | closing brace after _ => after.getD "" ++ brace

/-- Whether a node before some tags is asked for a semicolon, if it is asked for one before what
follows them: the next node that is no comment asks for one, and the end of their parent may do
so. -/
def asks (semicolon : Bool) : List Tag → Bool
  | [] => semicolon
  | leaf content _ :: l => !content.isComment || asks semicolon l
  | opening _ _ :: _ => true
  | closing _ _ s :: _ => s == some true

/-- The text of some tags. -/
def written (semicolon : Bool) : List Tag → String
  | [] => ""
  | t :: l => t.text (asks semicolon l) ++ written semicolon l

/-- Whether the tags in front are asked for a semicolon depends on what the others ask. -/
theorem asks_append (semicolon : Bool) (l : List Tag) :
    ∀ k : List Tag, asks semicolon (k ++ l) = asks (asks semicolon l) k
  | [] => rfl
  | leaf content raws :: k => by rw [List.cons_append, asks, asks, asks_append semicolon l k]
  | opening _ _ :: _ => rfl
  | closing _ _ _ :: _ => rfl

/-- Tags are written one behind the other, those in front as the others ask. -/
theorem written_append (semicolon : Bool) (l : List Tag) : ∀ k : List Tag,
    written semicolon (k ++ l) = written (asks semicolon l) k ++ written semicolon l
  | [] => by rw [List.nil_append, written, String.empty_append]
  | t :: k => by
    rw [List.cons_append, written, written, asks_append, written_append semicolon l k,
      String.append_assoc]

@[simp] theorem text_closing (semicolon : Bool) (brace : String) (after : Option String)
    (s : Option Bool) : (closing brace after s).text semicolon = after.getD "" ++ brace := rfl

end Tag

namespace Tree

/-! ## Trees as tags -/

mutual

/-- A tree as tags. -/
def tags : Tree → List Tag
  | .node content raws ts =>
    if showsChildren content then
      .opening content raws.front ::
        (tagsOf ts ++ [.closing content.brace raws.after raws.semicolon])
    else [.leaf content raws]

/-- Siblings as tags. -/
def tagsOf : List Tree → List Tag
  | [] => []
  | t :: ts => tags t ++ tagsOf ts

end

theorem tags_of_shows {content : Content} (h : showsChildren content = true) (raws : Raws)
    (ts : List Tree) : (node content raws ts).tags = .opening content raws.front ::
      (tagsOf ts ++ [.closing content.brace raws.after raws.semicolon]) := by
  rw [tags, if_pos h]

theorem tags_of_not_shows {content : Content} (h : showsChildren content = false) (raws : Raws)
    (ts : List Tree) : (node content raws ts).tags = [.leaf content raws] := by
  rw [tags, if_neg (by simp [h])]

/-- The last tag of a sheet is its end. -/
theorem eq_of_tags {file : Option String} {t : Tree} {l : List Tag} {T : Tag}
    (h : t.tags = .opening (.root file) {} :: (l ++ [T])) :
    ∃ raws ts, t = node (.root file) raws ts ∧ T = .closing "" raws.after raws.semicolon := by
  obtain ⟨content, raws, ts⟩ := t
  cases hshows : showsChildren content with
  | false =>
    rw [tags_of_not_shows hshows] at h
    cases (List.cons.inj h).1
  | true =>
    rw [tags_of_shows hshows] at h
    obtain ⟨hhead, hrest⟩ := List.cons.inj h
    obtain ⟨rfl, -⟩ := Tag.opening.inj hhead
    exact ⟨raws, ts, rfl, (List.singleton_inj.1 (List.append_inj_right' hrest rfl)).symm⟩

theorem tagsOf_append (us : List Tree) :
    ∀ ts : List Tree, tagsOf (ts ++ us) = tagsOf ts ++ tagsOf us
  | [] => rfl
  | t :: ts => by rw [List.cons_append, tagsOf, tagsOf, tagsOf_append us ts, List.append_assoc]

theorem tagsOf_singleton (t : Tree) : tagsOf [t] = t.tags := by
  rw [tagsOf, tagsOf, List.append_nil]

theorem isComment_of_shows {content : Content} (h : showsChildren content = true) :
    content.isComment = false := by
  cases content with
  | root | rule | atRule => rfl
  | declaration | comment => cases h

/-- A tree asks the node before it for a semicolon, unless it is a comment. -/
theorem asks_tags (semicolon : Bool) : ∀ t : Tree,
    Tag.asks semicolon t.tags = (!t.isComment || semicolon)
  | .node content raws ts => by
    show _ = (!content.isComment || semicolon)
    cases h : showsChildren content with
    | true => rw [tags_of_shows h, Tag.asks, isComment_of_shows h]; rfl
    | false => rw [tags_of_not_shows h, Tag.asks, Tag.asks]

/-- Trees ask for a semicolon if one of them is no comment. -/
theorem asks_tagsOf (semicolon : Bool) : ∀ ts : List Tree,
    Tag.asks semicolon (tagsOf ts) = (semicolon || ts.any (!·.isComment))
  | [] => by simp [tagsOf, Tag.asks]
  | t :: ts => by
    rw [tagsOf, Tag.asks_append, asks_tagsOf semicolon ts, asks_tags, List.any_cons]
    cases semicolon <;> simp

/-- The text of a node with children, in parts. -/
theorem text_of_shows {content : Content} (h : showsChildren content = true) (raws : Raws)
    (semicolon : Bool) (ts : List Tree) : (node content raws ts).text semicolon =
      Frame.head ⟨content, raws.front, []⟩ ++ texts (raws.semicolon == some true) ts ++
        (raws.after.getD "" ++ content.brace) := by
  cases content with
  | root => simp [text, Frame.head, Content.brace]
  | rule =>
    simp [text, Frame.head, Content.brace, blockText, Raws.front, String.append_assoc]
  | atRule name params body =>
    cases body with
    | true =>
      simp [text, Frame.head, Content.brace, blockText, Raws.front, atRuleHead,
        String.append_assoc]
    | false => cases h
  | declaration | comment => cases h

theorem text_of_not_shows {content : Content} (h : showsChildren content = false) (raws : Raws)
    (semicolon : Bool) (ts : List Tree) :
    (node content raws ts).text semicolon = (node content raws []).text semicolon := by
  cases content with
  | atRule name params body =>
    cases body with
    | true => cases h
    | false => rw [text, text]
  | root | rule => cases h
  | declaration | comment => rw [text, text]

mutual

/-- The tags of a tree have its text. -/
theorem written_tags (semicolon : Bool) : ∀ t : Tree,
    Tag.written semicolon t.tags = t.text semicolon
  | .node content raws ts => by
    cases h : showsChildren content with
    | true =>
      have hasks : Tag.asks semicolon [.closing content.brace raws.after raws.semicolon] =
          (raws.semicolon == some true) := rfl
      rw [tags_of_shows h, text_of_shows h, Tag.written, Tag.written_append, Tag.written,
        Tag.written, hasks, written_tagsOf (raws.semicolon == some true) ts, Tag.text,
        Tag.text_closing, String.append_empty, String.append_assoc]
    | false =>
      rw [tags_of_not_shows h, text_of_not_shows h, Tag.written, Tag.written, String.append_empty]
      rfl

/-- The tags of trees are written as the trees. -/
theorem written_tagsOf (semicolon : Bool) : ∀ ts : List Tree,
    Tag.written semicolon (tagsOf ts) = texts semicolon ts
  | [] => rfl
  | t :: ts => by
    rw [tagsOf, Tag.written_append, written_tags _ t, written_tagsOf semicolon ts, texts,
      asks_tagsOf]

end

/-! ## What is said -/

mutual

/-- A tree without how it was written: what its nodes say, and how they stand in each other. -/
def plain : Tree → Tree
  | .node content _ ts => .node content {} (plains ts)

/-- Siblings without how they were written. -/
def plains : List Tree → List Tree
  | [] => []
  | t :: ts => plain t :: plains ts

end

mutual

/-- What a tree says has the tags of the tree, but for how they are written. -/
theorem tags_plain : ∀ t : Tree, t.plain.tags = t.tags.map Tag.plain
  | .node content raws ts => by
    rw [plain]
    cases h : showsChildren content with
    | true =>
      rw [tags_of_shows h, tags_of_shows h, tagsOf_plains ts, List.map_cons, List.map_append]
      rfl
    | false =>
      rw [tags_of_not_shows h, tags_of_not_shows h]
      rfl

theorem tagsOf_plains : ∀ ts : List Tree, tagsOf (plains ts) = (tagsOf ts).map Tag.plain
  | [] => rfl
  | t :: ts => by rw [plains, tagsOf, tagsOf, tags_plain t, tagsOf_plains ts, List.map_append]

end

/-- The end of a node is in front. -/
def EndsNode (l : List Tag) : Prop :=
  ∃ brace after semicolon k, l = .closing brace after semicolon :: k

/-- No tree ends where one starts. -/
theorem not_endsNode_tags (t : Tree) (l : List Tag) : ¬EndsNode (t.tags ++ l) := by
  obtain ⟨content, raws, ts⟩ := t
  rintro ⟨brace, after, semicolon, k, h⟩
  cases hshows : showsChildren content with
  | true =>
    rw [tags_of_shows hshows] at h
    cases (List.cons.inj h).1
  | false =>
    rw [tags_of_not_shows hshows] at h
    cases (List.cons.inj h).1

mutual

/-- Tags of trees, all of whose children are written, tell what the trees say. -/
theorem plain_eq_of_tags : ∀ {t t' : Tree} {l l' : List Tag}, t.All ShowsAll → t'.All ShowsAll →
    t.tags.map Tag.plain ++ l = t'.tags.map Tag.plain ++ l' → t.plain = t'.plain ∧ l = l'
  | .node content raws ts, .node content' raws' ts', l, l', ht, ht', h => by
    cases hshows : showsChildren content with
    | true =>
      rw [tags_of_shows hshows] at h
      cases hshows' : showsChildren content' with
      | true =>
        rw [tags_of_shows hshows', List.map_cons, List.map_cons, List.map_append, List.map_append,
          List.cons_append, List.cons_append, List.append_assoc, List.append_assoc] at h
        obtain ⟨hhead, hrest⟩ := List.cons.inj h
        obtain ⟨rfl, -⟩ := Tag.opening.inj hhead
        obtain ⟨hchildren, hbehind⟩ := plains_eq_of_tags ht.2 ht'.2 hrest ⟨_, _, _, _, rfl⟩
          ⟨_, _, _, _, rfl⟩
        rw [plain, plain, hchildren]
        exact ⟨rfl, (List.cons.inj hbehind).2⟩
      | false =>
        rw [tags_of_not_shows hshows'] at h
        cases (List.cons.inj h).1
    | false =>
      rw [tags_of_not_shows hshows] at h
      cases hshows' : showsChildren content' with
      | true =>
        rw [tags_of_shows hshows'] at h
        cases (List.cons.inj h).1
      | false =>
        rw [tags_of_not_shows hshows'] at h
        obtain ⟨hhead, hrest⟩ := List.cons.inj h
        obtain ⟨rfl, -⟩ := Tag.leaf.inj hhead
        have hnone : ∀ {raws : Raws} {us : List Tree}, ShowsAll content raws us → us = [] := by
          intro raws us hall
          by_contra hne
          rw [hall hne] at hshows
          cases hshows
        rw [hnone ht.1, hnone ht'.1]
        exact ⟨rfl, hrest⟩

/-- Trees say the same if their tags do. -/
theorem plains_eq_of_tags : ∀ {ts ts' : List Tree} {l l' : List Tag}, AllOf ShowsAll ts →
    AllOf ShowsAll ts' → (tagsOf ts).map Tag.plain ++ l = (tagsOf ts').map Tag.plain ++ l' →
    EndsNode l → EndsNode l' → plains ts = plains ts' ∧ l = l'
  | [], [], _, _, _, _, h, _, _ => ⟨rfl, h⟩
  | [], t' :: ts', l, l', _, _, h, hl, _ => by
    obtain rfl : l = (tagsOf (t' :: ts')).map Tag.plain ++ l' := h
    rw [tagsOf, List.map_append, List.append_assoc, ← tags_plain] at hl
    exact absurd hl (not_endsNode_tags t'.plain _)
  | t :: ts, [], l, l', _, _, h, _, hl' => by
    obtain rfl : (tagsOf (t :: ts)).map Tag.plain ++ l = l' := h
    rw [tagsOf, List.map_append, List.append_assoc, ← tags_plain] at hl'
    exact absurd hl' (not_endsNode_tags t.plain _)
  | t :: ts, t' :: ts', l, l', ht, ht', h, hl, hl' => by
    rw [tagsOf, tagsOf, List.map_append, List.map_append, List.append_assoc,
      List.append_assoc] at h
    obtain ⟨hfirst, hrest⟩ := plain_eq_of_tags ht.1 ht'.1 h
    obtain ⟨hothers, hbehind⟩ := plains_eq_of_tags ht.2 ht'.2 hrest hl hl'
    rw [plains, plains, hfirst, hothers]
    exact ⟨rfl, hbehind⟩

end

/-- Two trees say the same exactly if their tags do. -/
theorem plain_eq_iff {t t' : Tree} (ht : t.All ShowsAll) (ht' : t'.All ShowsAll) :
    t.plain = t'.plain ↔ t.tags.map Tag.plain = t'.tags.map Tag.plain := by
  constructor
  · intro h
    rw [← tags_plain, h, tags_plain]
  · intro h
    have happ : t.tags.map Tag.plain ++ [] = t'.tags.map Tag.plain ++ [] := by rw [h]
    exact (plain_eq_of_tags ht ht' happ).1

/-! ## Changes in one place -/

/-- A tree with another tree in the place of one of its nodes and what is below that. -/
inductive Replaced (s s' : Tree) : Tree → Tree → Prop
  | top : Replaced s s' s s'
  | inside {content : Content} {raws : Raws} {us vs : List Tree} {t t' : Tree}
      (h : Replaced s s' t t') (hshows : showsChildren content = true) :
      Replaced s s' (node content raws (us ++ t :: vs)) (node content raws (us ++ t' :: vs))

namespace Replaced

variable {s s' t t' : Tree}

/-- The tags change in one place. -/
theorem exists_tags (h : Replaced s s' t t') :
    ∃ k l, t.tags = k ++ (s.tags ++ l) ∧ t'.tags = k ++ (s'.tags ++ l) := by
  induction h with
  | top => exact ⟨[], [], by simp, by simp⟩
  | @inside content raws us vs t t' _ hshows ih =>
    obtain ⟨k, l, hk, hl⟩ := ih
    refine ⟨.opening content raws.front :: (tagsOf us ++ k), l ++ (tagsOf vs ++
      [.closing content.brace raws.after raws.semicolon]), ?_, ?_⟩
    · rw [tags_of_shows hshows, tagsOf_append, tagsOf, hk]
      simp
    · rw [tags_of_shows hshows, tagsOf_append, tagsOf, hl]
      simp

/-- If a tree among others is replaced, what holds of all nodes holds of those in the new tree. -/
theorem allOf_replaced {P : Content → Raws → List Tree → Prop} {us vs : List Tree}
    (h : AllOf P (us ++ t :: vs)) (ht' : t'.All P) : t.All P ∧ AllOf P (us ++ t' :: vs) := by
  simp only [allOf_iff, List.mem_append, List.mem_cons] at h ⊢
  refine ⟨h t (Or.inr (Or.inl rfl)), ?_⟩
  rintro u (hu | rfl | hu)
  · exact h u (Or.inl hu)
  · exact ht'
  · exact h u (Or.inr (Or.inr hu))

/-- All children are still written. -/
theorem showsAll (h : Replaced s s' t t') (ht : t.All ShowsAll)
    (hs : s.All ShowsAll → s'.All ShowsAll) : t'.All ShowsAll := by
  induction h with
  | top => exact hs ht
  | @inside content raws us vs t t' _ hshows ih =>
    have hmem : t.All ShowsAll := by
      refine allOf_iff.1 ht.2 t ?_
      simp
    exact ⟨fun _ => hshows, (allOf_replaced ht.2 (ih hmem)).2⟩

end Replaced

end Tree

end PixelUnit.Sheet
