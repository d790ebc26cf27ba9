import PixelUnit.Proofs.Sheet.Spots

/-!
# New nodes in front of other tokens

A new comment is a token of its own in front of whatever comes behind it. A new declaration ends in
a semicolon if what is behind asks for one. If nothing does, only comments stand between it and the
end of its container, and it takes them, up to a semicolon, into its value
(`ReadsTags.exists_ahead`): what is behind it is read as before just if there are none
(`ReadsTags.exists_newDeclaration`).
-/

namespace PixelUnit.Sheet

variable {w v : String} {x : List Char} {xs : List Token}

/-! ## Comments -/

/-- The text of a comment without an asterisk ends where its closing mark is put. -/
theorem splitComment_append_close {cs : List Char} (h : '*' ∉ cs) (r : List Char) :
    splitComment (cs ++ '*' :: '/' :: r) = some (cs ++ ['*', '/'], r) := by
  induction cs with
  | nil => rfl
  | cons c cs ih =>
    obtain ⟨hc, hcs⟩ := not_or.1 (List.mem_cons.not.1 h)
    rw [List.cons_append, splitComment, ih hcs]
    · rfl
    · rintro s rfl -
      exact hc rfl

/-- The token of a comment that is written by default. -/
def Token.newComment (w : String) : Token :=
  .of .comment ('/' :: '*' :: (' ' :: (w.toList ++ [' '])) ++ ['*', '/'])

namespace IsLetterWord

/-- A new comment is a token before every text. -/
theorem lexes_newComment (hw : IsLetterWord w) (hxs : Lexes x xs) :
    Lexes ((Token.newComment w).raw.toList ++ x) (.newComment w :: xs) := by
  have hstar : '*' ∉ ' ' :: (w.toList ++ [' ']) := by
    have hletters : '*' ∉ w.toList := fun hmem => absurd (hw.2 '*' hmem) (by decide)
    simpa using hletters
  have happ : (Token.newComment w).raw.toList ++ x =
      '/' :: (('*' :: (' ' :: (w.toList ++ [' '])) ++ ['*', '/']) ++ x) := by
    simp [Token.newComment]
  rw [happ]
  refine .cons (Lexeme.read_of_form (.comment rfl ?_ (splitComment_append_close hstar x))) hxs
  simp

/-- A new comment says its word. -/
theorem text_newComment (hw : IsLetterWord w) : (Token.newComment w).text = w.toList := by
  have hinner : (Token.newComment w).inner = ' ' :: (w.toList ++ [' ']) :=
    inner_of_raw (Token.toList_raw_of _ _)
  obtain ⟨c, t, ht, hletters⟩ := hw.exists_cons
  have hstart : Text.trimStart (' ' :: (w.toList ++ [' '])) = w.toList ++ [' '] := by
    rw [Text.trimStart, List.dropWhile_cons_of_pos (by decide +kernel), ht, List.cons_append,
      List.dropWhile_cons_of_neg]
    simp [isBlank_of_isAlpha (hletters c List.mem_cons_self)]
  obtain ⟨y, d, hy⟩ := (List.eq_nil_or_concat' w.toList).resolve_left hw.1
  have hlast : Text.isBlank d = false :=
    hw.isBlank_getLast d (by rw [hy, List.getLast?_concat]; rfl)
  rw [Token.text, hinner, Text.trim, hstart, hy,
    trimEnd_concat hlast (List.forall_mem_singleton.2 (by decide +kernel))]

theorem content_newComment (hw : IsLetterWord w) (before : String) :
    (commentNode before (.newComment w)).content = .comment w := by
  show Content.comment (String.ofList (Token.newComment w).text) = _
  rw [hw.text_newComment, String.ofList_toList]

end IsLetterWord

/-- A new comment is written as its token. -/
theorem text_comment_default (w : String) (semicolon : Bool) :
    (Tag.leaf (.comment w) {}).text semicolon = (Token.newComment w).raw := by
  rw [← String.toList_inj]
  simp [Tag.text, Tree.text, Tree.commentText, Token.newComment]

namespace Builder.Stands

/-- A new comment is read before whatever comes behind it. -/
theorem exists_newComment {b : Builder} {ss ss' : List (Option Bool)} {p : String}
    {ls l : List Tag} {back : List Token} (h : b.Stands ss p ls)
    (hw : IsLetterWord w) (hback : ReadsTags ss' "" back l) (hlen : ss'.length = ss.length) :
    ∃ tree, (b.run (.newComment w :: back)).result = .ok tree ∧
      tree.tags.map Tag.plain = (ls ++ .leaf (.comment w) {} :: l).map Tag.plain := by
  obtain ⟨b', hrun, hb'⟩ := h.comment (t := .newComment w) rfl back
  obtain ⟨l', hl', hplain⟩ := hback.exists_plain "" hlen.symm
  obtain ⟨tree, hok, -, htags⟩ := hl'.exists_tree hb'
  refine ⟨tree, by rw [hrun, hok], ?_⟩
  rw [htags, hw.content_newComment, List.map_append, List.map_append, hplain, List.append_assoc]
  simp [Tag.plain]

end Builder.Stands

/-! ## Declarations -/

/-- The tokens of a new declaration up to its end. -/
def declarationWords (w v : String) : List Token :=
  [.of .word w.toList, .of .colon [':'], .of .spacing [' '], .of .word v.toList]

/-- The tokens of a new declaration, with a semicolon if it is asked for one. -/
def newDeclaration (w v : String) (semicolon : Bool) : List Token :=
  declarationWords w v ++ if semicolon then [.of .semicolon [';']] else []

/-- A new declaration is written as its tokens. -/
theorem text_declaration_default (w v : String) (semicolon : Bool) :
    (Tag.leaf (.declaration w v false) {}).text semicolon =
      rawText (newDeclaration w v semicolon) := by
  rw [← String.toList_inj]
  cases semicolon <;>
    simp [Tag.text, Tree.text, Tree.declarationText, newDeclaration, declarationWords, Token.of]

/-- A new declaration is read as its tokens. -/
theorem lexes_newDeclaration (hw : IsLetterWord w) (hv : IsLetterWord v) (semicolon : Bool)
    (hxs : Lexes x xs) (hx : semicolon = false → Closes x) :
    Lexes ((rawText (newDeclaration w v semicolon)).toList ++ x)
      (newDeclaration w v semicolon ++ xs) := by
  obtain ⟨y, ys, hy, hys, hcloses, happ⟩ : ∃ y ys, newDeclaration w v semicolon ++ xs =
      declarationWords w v ++ ys ∧ Lexes y ys ∧ Closes y ∧
      (rawText (newDeclaration w v semicolon)).toList ++ x =
        w.toList ++ ':' :: ' ' :: (v.toList ++ y) := by
    cases semicolon with
    | true =>
      refine ⟨';' :: x, .of .semicolon [';'] :: xs, by simp [newDeclaration],
        .cons (t := []) rfl hxs,
        closes_of_barrier (Or.inr (Or.inl rfl)) x, ?_⟩
      simp [newDeclaration, declarationWords, Token.of]
    | false =>
      refine ⟨x, xs, by simp [newDeclaration], hxs, hx rfl, ?_⟩
      simp [newDeclaration, declarationWords, Token.of]
  have hvalue := hv.lexes_append hcloses hys
  have hspace : Lexes (' ' :: ([] ++ (v.toList ++ y))) (.of .spacing [' '] :: _) :=
    .cons (Lexeme.read_spacing (List.forall_mem_singleton.2 rfl) (hv.head_isSpacing y)) hvalue
  have hcolon : Lexes (':' :: ([] ++ (' ' :: ([] ++ (v.toList ++ y))))) (.of .colon [':'] :: _) :=
    .cons (t := []) rfl hspace
  rw [hy, happ]
  exact hw.lexes_append (closes_of_barrier (Or.inl rfl) _) hcolon

/-- The cut of a new declaration that goes on with other tokens. -/
def newCut (w v : String) (xs : List Token) : DeclarationCut (declarationWords w v ++ xs) where
  prop := [.of .word w.toList]
  gap := []
  colon := .of .colon [':']
  lead := [.of .spacing [' ']]
  value := .of .word v.toList :: (splitTrailing xs).1
  trail := (splitTrailing xs).2
  tokens_eq := by simp [declarationWords, splitTrailing_append]
  prop_ne_nil := DeclarationCut.singleWord_ne_nil w
  colon_kind := rfl
  noColon := List.forall_mem_singleton.2 nofun
  spacing := List.forall_mem_cons.2 ⟨rfl, splitTrailing_spacing xs⟩
  value_head := by rintro t ⟨⟩; exact nofun
  value_last := by
    intro t ht
    rw [List.getLast?_cons] at ht
    cases hlast : (splitTrailing xs).1.getLast? with
    | none =>
      rw [hlast] at ht
      obtain rfl := Option.some.inj ht
      exact nofun
    | some u =>
      rw [hlast] at ht
      obtain rfl := Option.some.inj ht
      exact splitTrailing_getLast xs u hlast

theorem newCut_exact (w v : String) (xs : List Token) : (newCut w v xs).Exact :=
  ⟨by rintro t ⟨⟩; exact nofun, fun hnil => absurd hnil (List.cons_ne_nil _ _)⟩

/-- White space behind a new declaration does not count. -/
theorem content_newCut (w : String) (hv : IsLetterWord v) (hxs : ∀ t ∈ xs, t.isSpacing = true) :
    (newCut w v xs).content = .declaration w v false := by
  have hvalue : (newCut w v xs).value = [.of .word v.toList] := by
    have hsplit : splitTrailing ([] ++ xs) = ([], xs) := splitTrailing_eq (by rintro t ⟨⟩) hxs
    rw [List.nil_append] at hsplit
    show Token.of .word v.toList :: (splitTrailing xs).1 = _
    rw [hsplit]
  have hmark : (newCut w v xs).mark = none := by
    rw [DeclarationCut.mark, hvalue, rawText_word]
    exact hv.splitImportant_eq_none
  have hcomments : [Token.of .word v.toList].filter (·.kind != .comment) =
      [Token.of .word v.toList] := rfl
  have hclean : (newCut w v xs).clean = v := by
    rw [DeclarationCut.clean, hmark, hvalue, cleanValue, hcomments, rawText_word]
    simp [hv.trim_eq]
  show Content.declaration (rawText [.of .word w.toList]) _ _ = _
  rw [rawText_word, hclean, hmark]
  rfl

/-- A new declaration goes on with white space and comments. -/
theorem read_newDeclaration (w v : String) {stop : Option Token} {rest : List Token}
    (hxs : ∀ t ∈ xs, t.kind = .spacing ∨ t.kind = .comment)
    (hstop : ∀ t, stop = some t → t.kind = .semicolon) (hrest : stop = none → ClosesNext rest) :
    Prelude.read [] (declarationWords w v ++ xs ++ (stop.toList ++ rest)) =
      ⟨declarationWords w v ++ xs, stop, rest, false⟩ := by
  have hkinds : ∀ t ∈ declarationWords w v ++ xs,
      t.kind = .word ∨ t.kind = .colon ∨ t.kind = .spacing ∨ t.kind = .comment := by
    intro t ht
    rcases List.mem_append.1 ht with ht | ht
    · simp only [declarationWords, List.mem_cons, List.not_mem_nil, or_false] at ht
      rcases ht with rfl | rfl | rfl | rfl <;> simp [Token.of]
    · exact Or.inr (Or.inr (hxs t ht))
  have hpass : Prelude.passes [] ((declarationWords w v ++ xs).map Token.kind) = some [] := by
    refine Prelude.Neutral.of_not_delimits (fun k hk => ?_) [] Prelude.awaits_nil
    obtain ⟨t, ht, rfl⟩ := List.mem_map.1 hk
    rcases hkinds t ht with h | h | h | h <;> rw [h] <;> rfl
  have hts : ∀ t ∈ declarationWords w v ++ xs, t.kind ≠ .ending := by
    intro t ht
    rcases hkinds t ht with h | h | h | h <;> simp [h]
  cases stop with
  | none => exact Prelude.read_before hts hpass (hrest rfl)
  | some u => exact Prelude.read_stop hts hpass (Or.inr (hstop u rfl))

/-- A new declaration is a statement of its own, with what ends it. -/
theorem statement_newDeclaration (w v : String) {stop : Option Token} {rest : List Token}
    (hxs : ∀ t ∈ xs, t.kind = .spacing ∨ t.kind = .comment)
    (hstop : ∀ t, stop = some t → t.kind = .semicolon) (hrest : stop = none → ClosesNext rest) :
    Statement (declarationWords w v ++ xs ++ (stop.toList ++ rest))
      ⟨declarationWords w v ++ xs, stop, rest, false⟩ (newCut w v xs).content
        (newCut w v xs).raws := by
  have hopen : Prelude.opensBlock ⟨declarationWords w v ++ xs, stop, rest, false⟩ = false := by
    cases stop with
    | none => rfl
    | some u => simp [Prelude.opensBlock, hstop u rfl]
  exact .declaration startsStatement_word (read_newDeclaration w v hxs hstop hrest).symm hopen
    (newCut w v xs) (newCut_exact w v xs)

/-! ## What is behind -/

/-- The first of some tags is no comment, or a semicolon stands in front of it. -/
def SemicolonFirst (l : List Tag) : Prop :=
  ∀ content raws m, l = .leaf content raws :: m → ';' ∈ (raws.before.getD "").toList

theorem semicolonFirst_closing (brace : String) (after : Option String) (semicolon : Option Bool)
    (l : List Tag) : SemicolonFirst (.closing brace after semicolon :: l) := by
  intro content raws m h
  cases h

namespace ReadsTags

variable {s : Option Bool} {ss : List (Option Bool)} {p : String} {ts : List Token} {l : List Tag}

/-- What has been passed is in front of the next node. -/
theorem exists_before {content : Content} {raws : Raws}
    (h : ReadsTags ss p ts (.leaf content raws :: l)) : ∃ q, raws.before = some (p ++ q) := by
  generalize hm : Tag.leaf content raws :: l = m at h
  induction h with
  | pass _ _ ih =>
    obtain ⟨q, hq⟩ := ih hm
    exact ⟨_, hq.trans (by rw [String.append_assoc])⟩
  | finish | close | block => cases hm
  | comment =>
    obtain ⟨-, hraws⟩ := Tag.leaf.inj (List.cons.inj hm).1
    refine ⟨"", ?_⟩
    rw [hraws, String.append_empty]
    rfl
  | line hq =>
    obtain ⟨-, hraws⟩ := Tag.leaf.inj (List.cons.inj hm).1
    refine ⟨"", ?_⟩
    rw [hraws, String.append_empty]
    cases hq <;> rfl

/-- Only white space and the comments `xs` are in front of a semicolon or the end of a container;
what is behind that is read as the tags `m`. -/
structure Ahead (ss : List (Option Bool)) (ts xs : List Token) (stop : Option Token)
    (rest : List Token) (m : List Tag) : Prop where
  split : ts = xs ++ (stop.toList ++ rest)
  kinds : ∀ t ∈ xs, t.kind = .spacing ∨ t.kind = .comment
  stops : ∀ t, stop = some t → t.kind = .semicolon
  closes : stop = none → ClosesNext rest
  reads : ∃ p, ReadsTags ss p rest m

namespace Ahead

variable {stop : Option Token} {rest : List Token} {m : List Tag} {t : Token}

theorem cons (h : Ahead ss ts xs stop rest m) (ht : t.kind = .spacing ∨ t.kind = .comment) :
    Ahead ss (t :: ts) (t :: xs) stop rest m where
  split := by rw [h.split, List.cons_append]
  kinds := List.forall_mem_cons.2 ⟨ht, h.kinds⟩
  stops := h.stops
  closes := h.closes
  reads := h.reads

theorem semicolon (ht : t.kind = .semicolon) (h : ReadsTags ss p ts l) :
    Ahead ss (t :: ts) [] (some t) ts l where
  split := rfl
  kinds := List.forall_mem_nil _
  stops := by rintro u ⟨⟩; exact ht
  closes := nofun
  reads := ⟨p, h⟩

theorem nothing (hts : ClosesNext ts) (h : ReadsTags ss p ts l) : Ahead ss ts [] none ts l where
  split := rfl
  kinds := List.forall_mem_nil _
  stops := nofun
  closes := fun _ => hts
  reads := ⟨p, h⟩

end Ahead

/-- Where no semicolon is asked for, only comments are in front of a semicolon or the end of the
container, and there are none just if the first of the tags is none without a semicolon in front
of it. -/
theorem exists_ahead (h : ReadsTags (s :: ss) p ts l) (hts : Lexical ts)
    (hasks : Tag.asks false l = false) : ∃ xs stop rest m, Ahead (s :: ss) ts xs stop rest m ∧
      ((∀ t ∈ xs, t.isSpacing = true) ∧ m = l ∧ SemicolonFirst l ∨
        m.length < l.length ∧ (';' ∉ p.toList → ¬SemicolonFirst l)) := by
  induction ts generalizing p l with
  | nil =>
    cases h with
    | finish =>
      exact ⟨[], none, [], _, .nothing nofun .finish,
        Or.inl ⟨List.forall_mem_nil _, rfl, semicolonFirst_closing _ _ _ _⟩⟩
    | line hq | block hq => cases hq
  | cons t r ih =>
    have hr : Lexical r := hts.mono (List.subset_cons_self _ _)
    cases h with
    -- White space is in front of all that comes behind it; a semicolon ends the search.
    | pass ht h =>
      rcases ht with ht | ht
      · obtain ⟨xs, stop, rest, m, hahead, hor⟩ := ih h hr hasks
        refine ⟨t :: xs, stop, rest, m, hahead.cons (Or.inl ht), hor.imp ?_ ?_⟩
        · rintro ⟨hspaces, hrest⟩
          exact ⟨List.forall_mem_cons.2 ⟨by simp [Token.isSpacing, ht], hspaces⟩, hrest⟩
        · rintro ⟨hlt, hnot⟩
          refine ⟨hlt, fun hp => hnot ?_⟩
          have hmarks := hts.marks t List.mem_cons_self
          rw [ht] at hmarks
          rw [String.toList_append, List.mem_append]
          rintro (hmem | hmem)
          · exact hp hmem
          · have hspace := hmarks ';' hmem
            cases hspace
      · refine ⟨[], some t, r, l, .semicolon ht h, Or.inl ⟨List.forall_mem_nil _, rfl, ?_⟩⟩
        rintro content raws m rfl
        obtain ⟨q, hq⟩ := h.exists_before
        rw [hq, (hts.raw_eq List.mem_cons_self).2.2 ht]
        simp
    | close ht h =>
      refine ⟨[], none, t :: r, _, .nothing ?_ (.close ht h),
        Or.inl ⟨List.forall_mem_nil _, rfl, semicolonFirst_closing _ _ _ _⟩⟩
      rintro u ⟨⟩
      exact ht
    -- A comment is passed, and so one tag less is left.
    | @comment _ _ _ _ l ht h =>
      obtain ⟨xs, stop, rest, m, hahead, hor⟩ := ih h hr hasks
      refine ⟨t :: xs, stop, rest, m, hahead.cons (Or.inr ht), Or.inr ⟨?_, fun hp hfirst => ?_⟩⟩
      · rw [List.length_cons]
        rcases hor with ⟨-, rfl, -⟩ | ⟨hlt, -⟩ <;> omega
      · exact hp (hfirst _ _ _ rfl)
    | line hq =>
      rw [Tag.asks, hq.isComment_eq] at hasks
      cases hasks
    | block => cases hasks

/-- Where no semicolon is asked for, words end. -/
theorem separates (h : ReadsTags (s :: ss) p ts l) (hasks : Tag.asks false l = false) :
    ∀ t, ts.head? = some t → t.kind.Separates := by
  intro t ht
  cases h with
  | finish => cases ht
  | pass hkind =>
    obtain rfl := Option.some.inj ht
    rcases hkind with hkind | hkind <;> simp [Token.Kind.Separates, hkind]
  | close hkind | comment hkind =>
    obtain rfl := Option.some.inj ht
    simp [Token.Kind.Separates, hkind]
  | line hq =>
    rw [Tag.asks, hq.isComment_eq] at hasks
    cases hasks
  | block => cases hasks

end ReadsTags

/-- A new declaration in front of some tags ends in a semicolon, or no comment is behind it without
one. -/
def TakesDeclaration (l : List Tag) : Prop :=
  Tag.asks false l = true ∨ SemicolonFirst l

namespace Builder.Stands

variable {b : Builder} {s s' : Option Bool} {ss : List (Option Bool)} {p : String}
  {ls l m : List Tag} {ts rest : List Token} {stop : Option Token}

/-- A new declaration takes the comments ahead of it. -/
theorem exists_tree_newDeclaration (hb : b.Stands (s :: ss) p ls) (w : String)
    (hv : IsLetterWord v) (hahead : ReadsTags.Ahead (s' :: ss) ts xs stop rest m) :
    ∃ tree content raws l', (b.run (declarationWords w v ++ ts)).result = .ok tree ∧
      tree.tags = ls ++ .leaf content raws :: l' ∧ l'.map Tag.plain = m.map Tag.plain ∧
      ((∀ t ∈ xs, t.isSpacing = true) → content = .declaration w v false) := by
  have hq := statement_newDeclaration w v hahead.kinds hahead.stops hahead.closes
  have hopen : Prelude.opensBlock ⟨declarationWords w v ++ xs, stop, rest, false⟩ = false := by
    cases stop with
    | none => rfl
    | some u => simp [Prelude.opensBlock, hahead.stops u rfl]
  obtain ⟨b', hrun, hb'⟩ := hb.line hq hopen rfl
  obtain ⟨p', hm⟩ := hahead.reads
  obtain ⟨l', hl', hplain⟩ := hm.exists_plain "" (List.length_cons.trans List.length_cons.symm)
  obtain ⟨tree, hok, -, htags⟩ := hl'.exists_tree hb'
  refine ⟨tree, _, _, l', ?_, by rw [htags, List.append_assoc]; rfl, hplain, content_newCut w hv⟩
  rw [hahead.split, ← List.append_assoc, hrun, hok]

/-- A new declaration is read before what comes behind it, and nothing of that is lost just if it
takes a declaration in front of it. -/
theorem exists_newDeclaration (hb : b.Stands (s :: ss) p ls) (w : String) (hv : IsLetterWord v)
    (h : ReadsTags (s' :: ss) "" ts l) (hts : Lexical ts) :
    ∃ tree, (b.run (newDeclaration w v (Tag.asks false l) ++ ts)).result = .ok tree ∧
      (tree.tags.map Tag.plain =
        (ls ++ .leaf (.declaration w v false) {} :: l).map Tag.plain ↔ TakesDeclaration l) := by
  have hsame : ∀ {tree : Tree} {content : Content} {raws : Raws} {l' : List Tag},
      tree.tags = ls ++ .leaf content raws :: l' → l'.map Tag.plain = l.map Tag.plain →
      content = .declaration w v false → tree.tags.map Tag.plain =
        (ls ++ .leaf (.declaration w v false) {} :: l).map Tag.plain := by
    rintro tree content raws l' htags hplain rfl
    rw [htags, List.map_append, List.map_append, List.map_cons, List.map_cons, hplain]
    rfl
  cases hasks : Tag.asks false l with
  | true =>
    have hahead : ReadsTags.Ahead (s' :: ss) (.of .semicolon [';'] :: ts) [] _ ts l :=
      .semicolon rfl h
    obtain ⟨tree, content, raws, l', hok, htags, hplain, hcontent⟩ :=
      hb.exists_tree_newDeclaration w hv hahead
    refine ⟨tree, ?_, ?_⟩
    · rw [newDeclaration, if_pos rfl, List.append_assoc]
      exact hok
    · exact iff_of_true (hsame htags hplain (hcontent (List.forall_mem_nil _))) (Or.inl hasks)
  | false =>
    obtain ⟨xs, stop, rest, m, hahead, hor⟩ := h.exists_ahead hts hasks
    obtain ⟨tree, content, raws, l', hok, htags, hplain, hcontent⟩ :=
      hb.exists_tree_newDeclaration w hv hahead
    refine ⟨tree, by rwa [newDeclaration, if_neg Bool.false_ne_true, List.append_nil], ?_⟩
    rcases hor with ⟨hspaces, rfl, hfirst⟩ | ⟨hlt, hnot⟩
    · exact iff_of_true (hsame htags hplain (hcontent hspaces)) (Or.inr hfirst)
    · refine iff_of_false (fun heq => ?_) (not_or.2 ⟨by simp [hasks], hnot (by simp)⟩)
      have hlen := congrArg List.length heq
      have hm := congrArg List.length hplain
      simp only [htags, List.length_map, List.length_append, List.length_cons] at hlen hm
      omega

end Builder.Stands

end PixelUnit.Sheet
