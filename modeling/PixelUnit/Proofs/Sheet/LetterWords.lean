import PixelUnit.Proofs.Sheet.Bare
import PixelUnit.Proofs.Sheet.Importance
import PixelUnit.Proofs.Sheet.Renewing
import PixelUnit.Proofs.Sheet.Words

/-!
# Words of letters

A word of ASCII letters is one token wherever a separator other than an opening parenthesis follows
it (`IsLetterWord.lexes_append`). As the value of a declaration it is read and understood as it is,
with or without a mark of importance behind it (`IsLetterWord.exists_value`).
-/

namespace PixelUnit.Sheet

/-- A text is a word of ASCII letters. -/
def IsLetterWord (w : String) : Prop :=
  w.toList ≠ [] ∧ ∀ c ∈ w.toList, c.isAlpha = true

instance (w : String) : Decidable (IsLetterWord w) :=
  @instDecidableAnd _ _ inferInstance (List.decidableBAll _ _)

/-! ## Letters -/

theorem isPlain_of_isAlpha {c : Char} (h : c.isAlpha = true) : isPlain c = true := by
  have hno : ∀ d ∈ '\\' :: '/' :: '@' :: separators, ¬d.isAlpha = true :=
    List.all_iff_forall_prop.1 (by decide)
  exact isPlain_of_not_mem fun hmem => hno c hmem h

/-- Letters are characters of identifiers. -/
theorem isIdent_of_isAlpha {c : Char} (h : c.isAlpha = true) : isIdent c = true := by
  have hcode : c.toNat < 128 := by
    have hbelow : ∀ z : UInt32, c.val ≤ z → z.toNat < 128 → c.toNat < 128 := fun z h hz =>
      Nat.lt_of_le_of_lt (UInt32.le_iff_toNat_le.1 h) hz
    rcases Bool.or_eq_true_iff.1 h with h | h
    · exact hbelow 'Z'.val (of_decide_eq_true h).2 (by decide)
    · exact hbelow 'z'.val (of_decide_eq_true (Bool.and_eq_true_iff.1 h).2) (by decide)
  have hall : ∀ n ∈ List.range 128, (Char.ofNat n).isAlpha = true → isIdent (Char.ofNat n) = true :=
    by decide +kernel
  have hc := hall c.toNat (List.mem_range.2 hcode)
  rw [Char.ofNat_toNat] at hc
  exact hc h

theorem isSpacing_of_isAlpha {c : Char} (h : c.isAlpha = true) : isSpacing c = false :=
  (isSpacing_of_not_isSeparator (isPlain_iff.1 (isPlain_of_isAlpha h)).1).1

theorem isBlank_of_isAlpha {c : Char} (h : c.isAlpha = true) : Text.isBlank c = false := by
  have hno : ∀ n ∈ blankCodes, (Char.ofNat n).isAlpha = false :=
    List.all_iff_forall_prop.1 (by decide +kernel)
  refine Bool.eq_false_iff.2 fun hblank => ?_
  have hcode := hno _ (mem_blankCodes hblank)
  rw [Char.ofNat_toNat, h] at hcode
  cases hcode

theorem kind_word (w : String) : ∀ t ∈ [Token.of .word w.toList], t.kind = .word :=
  List.forall_mem_singleton.2 rfl

@[simp] theorem rawText_word (w : String) : rawText [.of .word w.toList] = w := by
  simp [Token.of]

namespace IsLetterWord

variable {w : String}

theorem exists_cons (hw : IsLetterWord w) :
    ∃ c t, w.toList = c :: t ∧ ∀ d ∈ c :: t, d.isAlpha = true := by
  obtain ⟨c, t, ht⟩ := List.exists_cons_of_ne_nil hw.1
  exact ⟨c, t, ht, ht ▸ hw.2⟩

/-- No white space is in front of a word. -/
theorem head_isSpacing (hw : IsLetterWord w) (x : List Char) :
    ∀ d ∈ (w.toList ++ x).head?, isSpacing d = false := by
  obtain ⟨c, t, ht, hletters⟩ := hw.exists_cons
  rw [ht]
  intro d hd
  obtain rfl := Option.some.inj hd
  exact isSpacing_of_isAlpha (hletters c List.mem_cons_self)

/-- A word is a token before whatever ends it. -/
theorem lexes_append (hw : IsLetterWord w) {x : List Char} {xs : List Token} (hx : Closes x)
    (hxs : Lexes x xs) : Lexes (w.toList ++ x) (.of .word w.toList :: xs) := by
  obtain ⟨c, t, ht, hletters⟩ := hw.exists_cons
  rw [ht]
  exact .cons (Lexeme.read_plain (fun d hd => isPlain_of_isAlpha (hletters d hd)) hx.endsWord
    fun _ => hx.opensUrl) hxs

/-- No blanks are around a word. -/
theorem trim_eq (hw : IsLetterWord w) : Text.trim w.toList = w.toList := by
  have hdrop : ∀ {cs : List Char}, (∀ c ∈ cs, c.isAlpha = true) →
      cs.dropWhile Text.isBlank = cs := by
    intro cs hcs
    cases cs with
    | nil => rfl
    | cons c r =>
      rw [List.dropWhile_cons_of_neg]
      simp [isBlank_of_isAlpha (hcs c List.mem_cons_self)]
  rw [Text.trim, Text.trimStart, hdrop hw.2, Text.trimEnd,
    hdrop fun c hc => hw.2 c (List.mem_reverse.1 hc), List.reverse_reverse]

end IsLetterWord

/-! ## Words and white space -/

/-- What is behind a run of characters of some text before a semicolon. -/
theorem head?_dropWhile_semicolon (p : Char → Bool) (r : List Char) :
    ∀ d ∈ (r.dropWhile p ++ [';']).head?, d = ';' ∨ d ∈ r ∧ p d = false := by
  intro d hd
  cases hdrop : r.dropWhile p with
  | nil =>
    rw [hdrop] at hd
    exact Or.inl (Option.some.inj hd).symm
  | cons e s =>
    rw [hdrop] at hd
    obtain rfl : e = d := Option.some.inj hd
    have hhead : e ∈ (r.dropWhile p).head? := by
      rw [hdrop]
      rfl
    exact Or.inr ⟨List.dropWhile_subset p (List.mem_of_mem_head? hhead),
      Text.eq_false_of_mem_head?_dropWhile hhead⟩

/-- White space, up to what is none. -/
theorem Lexes.spacing_run {c : Char} {r : List Char} {ts : List Token} (hc : isSpacing c = true)
    (hts : Lexes (r.dropWhile isSpacing ++ [';']) ts) :
    Lexes (c :: r ++ [';']) (.of .spacing (c :: r.takeWhile isSpacing) :: ts) := by
  have hspaces : ∀ d ∈ c :: r.takeWhile isSpacing, isSpacing d = true :=
    List.forall_mem_cons.2 ⟨hc, fun _ => List.mem_takeWhile_imp⟩
  have hstop : ∀ d ∈ (r.dropWhile isSpacing ++ [';']).head?, isSpacing d = false := by
    intro d hd
    rcases head?_dropWhile_semicolon isSpacing r d hd with rfl | ⟨-, hd⟩
    · rfl
    · exact hd
  have hlex := Lexes.cons (Lexeme.read_spacing hspaces hstop) hts
  rwa [← List.append_assoc, List.takeWhile_append_dropWhile] at hlex

/-- A word of plain characters, up to white space. -/
theorem Lexes.plain_run {c : Char} {r : List Char} {ts : List Token} (hc : isPlain c = true)
    (hr : ∀ d ∈ r, isPlain d = true ∨ isSpacing d = true)
    (hts : Lexes (r.dropWhile isPlain ++ [';']) ts) :
    Lexes (c :: r ++ [';']) (.of .word (c :: r.takeWhile isPlain) :: ts) := by
  have hplain : ∀ d ∈ c :: r.takeWhile isPlain, isPlain d = true :=
    List.forall_mem_cons.2 ⟨hc, fun _ => List.mem_takeWhile_imp⟩
  have hcloses : Closes (r.dropWhile isPlain ++ [';']) := by
    refine closes_of_separator fun d hd => ?_
    rcases head?_dropWhile_semicolon isPlain r d hd with rfl | ⟨hmem, hd⟩
    · exact ⟨rfl, by decide⟩
    · have hspace := (hr d hmem).resolve_left (by simp [hd])
      refine ⟨by rw [isSeparator, hspace, Bool.or_true, Bool.true_or], ?_⟩
      rintro rfl
      cases hspace
  have hlex := Lexes.cons (Lexeme.read_plain hplain hcloses.endsWord fun _ => hcloses.opensUrl) hts
  rwa [← List.append_assoc, List.takeWhile_append_dropWhile] at hlex

/-- Plain characters and white space are read as words and white space. -/
theorem exists_lexes_words : ∀ (n : Nat) {cs : List Char}, cs.length ≤ n →
    (∀ c ∈ cs, isPlain c = true ∨ isSpacing c = true) →
    ∃ ts, Lexes (cs ++ [';']) (ts ++ [.of .semicolon [';']]) ∧
      ∀ t ∈ ts, t.kind = .word ∨ t.kind = .spacing
  | _, [], _, _ => ⟨[], .cons (t := []) rfl .nil, List.forall_mem_nil _⟩
  | n + 1, c :: r, hlen, hcs => by
    obtain ⟨hc, hr⟩ := List.forall_mem_cons.1 hcs
    -- what is behind the run of characters that are like the first one
    have hbehind : ∀ p : Char → Bool, ∃ ts, Lexes (r.dropWhile p ++ [';'])
        (ts ++ [.of .semicolon [';']]) ∧ ∀ t ∈ ts, t.kind = .word ∨ t.kind = .spacing := by
      intro p
      have hsub := List.dropWhile_sublist p (l := r)
      have hle := hsub.length_le
      rw [List.length_cons] at hlen
      exact exists_lexes_words n (by omega) fun d hd => hr d (hsub.subset hd)
    by_cases hspacing : isSpacing c = true
    · obtain ⟨ts, hts, hkinds⟩ := hbehind isSpacing
      exact ⟨.of .spacing (c :: r.takeWhile isSpacing) :: ts, .spacing_run hspacing hts,
        List.forall_mem_cons.2 ⟨Or.inr rfl, hkinds⟩⟩
    · obtain ⟨ts, hts, hkinds⟩ := hbehind isPlain
      exact ⟨.of .word (c :: r.takeWhile isPlain) :: ts,
        .plain_run (hc.resolve_right hspacing) hr hts, List.forall_mem_cons.2 ⟨Or.inl rfl, hkinds⟩⟩

/-! ## Marks of importance -/

/-- The text before a mark of importance can be exchanged. -/
theorem splitImportant_exchange {cs front mark x : List Char}
    (h : splitImportant cs = some (front, mark)) (hx : ∀ c ∈ x.getLast?, Text.isBlank c = false) :
    splitImportant (x ++ mark) = some (x, mark) := by
  unfold splitImportant at h
  split at h
  · cases h
  -- The mark is read from the end of the text: the word, blanks, the exclamation mark, and blanks
  -- in front of it.
  next word r htake =>
  split at h
  · next s hs =>
    obtain ⟨-, rfl⟩ := Prod.mk.inj (Option.some.inj h)
    obtain ⟨-, hword⟩ := takeWordUpToCase_eq_some_iff.1 htake
    have hblanks : ∀ c ∈ r.takeWhile Text.isBlank, Text.isBlank c = true := fun _ =>
      List.mem_takeWhile_imp
    have hspace : ∀ c ∈ s.takeWhile Text.isBlank, Text.isBlank c = true := fun _ =>
      List.mem_takeWhile_imp
    have hstop : ∀ c ∈ x.reverse.head?, Text.isBlank c = false := by
      rwa [List.head?_reverse]
    have hbang : ∀ c ∈ ('!' :: (s.takeWhile Text.isBlank ++ x.reverse)).head?,
        Text.isBlank c = false := fun c hc => Option.some.inj hc ▸ isBlank_bang
    -- The text does not end in a line feed that would be dropped, as the word ends in a letter.
    have hfeed : dropLineFeed (x ++ ((s.takeWhile Text.isBlank).reverse ++
        '!' :: (r.takeWhile Text.isBlank).reverse ++ word.reverse)) =
          x ++ ((s.takeWhile Text.isBlank).reverse ++
            '!' :: (r.takeWhile Text.isBlank).reverse ++ word.reverse) := by
      rw [importantWord_reverse] at hword
      cases hword with
      | @cons _ c _ word' hc _ =>
        refine if_neg fun hlast => ?_
        rw [List.reverse_cons, ← List.append_assoc, ← List.append_assoc, List.getLast?_concat,
          beq_iff_eq] at hlast
        obtain rfl := Option.some.inj hlast
        exact absurd (isBlank_of_sameUpToCase hc) (by decide +kernel)
    have hrev : (x ++ ((s.takeWhile Text.isBlank).reverse ++
        '!' :: (r.takeWhile Text.isBlank).reverse ++ word.reverse)).reverse =
          word ++ (r.takeWhile Text.isBlank ++
            '!' :: (s.takeWhile Text.isBlank ++ x.reverse)) := by
      simp
    have htake' : takeWordUpToCase importantWord.reverse (word ++ (r.takeWhile Text.isBlank ++
        '!' :: (s.takeWhile Text.isBlank ++ x.reverse))) = some (word, r.takeWhile Text.isBlank ++
          '!' :: (s.takeWhile Text.isBlank ++ x.reverse)) :=
      takeWordUpToCase_eq_some_iff.2 ⟨rfl, hword⟩
    -- So the mark is found in the new text as it was in the old one.
    rw [splitImportant, hfeed, hrev, htake']
    simp only [Text.takeWhile_run hblanks hbang, Text.dropWhile_run hblanks hbang,
      Text.takeWhile_run hspace hstop, Text.dropWhile_run hspace hstop, List.reverse_reverse]
  · cases h

/-- A mark of importance with the blanks before it separates nothing but by white space. -/
theorem isPlain_or_isSpacing_of_mark {cs front mark : List Char}
    (h : splitImportant cs = some (front, mark)) :
    ∀ c ∈ mark, isPlain c = true ∨ isSpacing c = true := by
  obtain ⟨blanks, core, rfl, hblanks, hcore⟩ := exists_isMark h
  have hblank : ∀ c, Text.isBlank c = true → isPlain c = true ∨ isSpacing c = true := by
    intro c hc
    have hno : ∀ n ∈ blankCodes, isPlain (Char.ofNat n) = true ∨ isSpacing (Char.ofNat n) = true :=
      List.all_iff_forall_prop.1 (by decide +kernel)
    simpa only [Char.ofNat_toNat] using hno _ (mem_blankCodes hc)
  have hword : ∀ w ∈ importantWord, ('\\' :: '/' :: '@' :: separators).all
      (Text.sameUpToCase w · = false) = true :=
    List.all_iff_forall_prop.1 (by decide +kernel)
  intro c hc
  rcases List.mem_append.1 hc with hc | hc
  · exact hblank c (hblanks c hc)
  rcases hcore.mem hc with rfl | hc | ⟨w, hw, hsame⟩
  · exact Or.inl rfl
  · exact hblank c hc
  · refine Or.inl (isPlain_of_not_mem fun hmem => ?_)
    rw [List.all_iff_forall_prop.1 (hword w hw) c hmem] at hsame
    cases hsame

/-! ## Values -/

namespace IsLetterWord

variable {w : String} {cs : List Char}

/-- A word of letters has no mark of importance at its end. -/
theorem splitImportant_eq_none (hw : IsLetterWord w) : splitImportant w.toList = none := by
  refine Option.eq_none_iff_forall_ne_some.2 fun ⟨front, mark⟩ hm => ?_
  obtain ⟨blanks, core, hmark, -, inner, word, rfl, -⟩ := exists_isMark hm
  have hbang : '!' ∈ w.toList := by
    have hmem : '!' ∈ dropLineFeed w.toList := by
      rw [← splitImportant_append hm, hmark]
      simp
    unfold dropLineFeed at hmem
    split at hmem
    · exact List.dropLast_subset _ hmem
    · exact hmem
  exact absurd (hw.2 '!' hbang) (by decide)

theorem isBlank_getLast (hw : IsLetterWord w) : ∀ c ∈ w.toList.getLast?, Text.isBlank c = false :=
  fun c hc => isBlank_of_isAlpha (hw.2 c (List.mem_of_getLast? hc))

/-- A word takes the place of the value before the mark of importance, if there is one. -/
theorem exists_mark (hw : IsLetterWord w) (cs : List Char) :
    ∃ m, ((splitImportant cs).map (·.2)).getD [] = m ∧
      splitImportant (w.toList ++ m) = (splitImportant cs).map (fun _ => (w.toList, m)) ∧
      (m = [] ∨ ∃ front, splitImportant cs = some (front, m)) := by
  cases hcs : splitImportant cs with
  | none => exact ⟨[], rfl, by rw [List.append_nil]; exact hw.splitImportant_eq_none, Or.inl rfl⟩
  | some split =>
    obtain ⟨front, mark⟩ := split
    exact ⟨mark, rfl, splitImportant_exchange hcs hw.isBlank_getLast, Or.inr ⟨front, rfl⟩⟩

/-- A word with a mark of importance ends in no blank. -/
theorem exists_concat (hw : IsLetterWord w) {m : List Char}
    (hm : m = [] ∨ ∃ front, splitImportant cs = some (front, m)) :
    ∃ x c, w.toList ++ m = x ++ [c] ∧ Text.isBlank c = false := by
  rcases hm with rfl | ⟨front, hm⟩
  · obtain ⟨x, c, hx⟩ := (List.eq_nil_or_concat' w.toList).resolve_left hw.1
    rw [List.append_nil]
    exact ⟨x, c, hx, hw.isBlank_getLast c (by rw [hx, List.getLast?_concat]; rfl)⟩
  · obtain ⟨blanks, core, rfl, -, hcore⟩ := exists_isMark hm
    obtain ⟨x, c, rfl, hc⟩ := hcore.eq_concat
    exact ⟨w.toList ++ (blanks ++ x), c, by simp, hc⟩

/-- A word with a mark of importance is read as words and white space, by itself. -/
theorem exists_readsAlone (hw : IsLetterWord w) {m : List Char}
    (hm : m = [] ∨ ∃ front, splitImportant cs = some (front, m)) : ∃ vs,
    ReadsAlone (w.toList ++ m) vs ∧ vs ≠ [] ∧ ∀ t ∈ vs, t.kind = .word ∨ t.kind = .spacing := by
  have hchars : ∀ c ∈ w.toList ++ m, isPlain c = true ∨ isSpacing c = true := by
    intro c hc
    rcases List.mem_append.1 hc with hc | hc
    · exact Or.inl (isPlain_of_isAlpha (hw.2 c hc))
    · rcases hm with rfl | ⟨front, hm⟩
      · cases hc
      · exact isPlain_or_isSpacing_of_mark hm c hc
  obtain ⟨vs, hlexes, hkinds⟩ := exists_lexes_words _ (Nat.le_refl _) hchars
  have hraw : (rawText vs).toList = w.toList ++ m := by
    have hraw := hlexes.rawText_eq
    rw [rawText_append, String.toList_append, rawText_cons, rawText_nil, String.append_empty,
      Token.toList_raw_of] at hraw
    exact List.append_cancel_right hraw
  have hne : vs ≠ [] := by
    rintro rfl
    exact hw.1 (List.append_eq_nil_iff.1 hraw.symm).1
  obtain ⟨x, c, hx, hc⟩ := hw.exists_concat hm
  refine ⟨vs, ⟨hlexes, fun t ht => ?_, hlexes.kind_ne_of_last fun d hd hspacing => ?_⟩, hne, hkinds⟩
  · obtain ⟨r, rfl⟩ : ∃ r, vs = t :: r := List.head?_eq_some_iff.1 ht
    exact hlexes.kind_ne_of_head (by rw [List.append_assoc]; exact hw.head_isSpacing _)
  · rw [hraw, hx, List.getLast?_concat] at hd
    obtain rfl := Option.some.inj hd
    rw [isBlank_of_isSpacing hspacing] at hc
    cases hc

/-- A word is read and understood as a value with the mark of importance of another one. -/
theorem exists_value (hw : IsLetterWord w) (cs : List Char) : ∃ vs,
    ReadsAlone (w.toList ++ ((splitImportant cs).map (·.2)).getD []) vs ∧ vs ≠ [] ∧
      (∀ t ∈ vs, t.kind = .word ∨ t.kind = .spacing) ∧
      (splitImportant (rawText vs).toList).isSome = (splitImportant cs).isSome ∧
      cleanValue vs (splitImportant cs).isSome = w.toList := by
  obtain ⟨m, rfl, hsplit, hm⟩ := hw.exists_mark cs
  generalize ((splitImportant cs).map (·.2)).getD [] = m at hsplit hm ⊢
  obtain ⟨vs, hvs, hne, hkinds⟩ := hw.exists_readsAlone hm
  have hraw := hvs.rawText_eq
  refine ⟨vs, hvs, hne, hkinds, by rw [hraw, hsplit, Option.isSome_map], ?_⟩
  have hcomments : vs.filter (·.kind != .comment) = vs := by
    refine List.filter_eq_self.2 fun t ht => ?_
    rcases hkinds t ht with h | h <;> simp [h]
  have hclean : Text.trimEnd (w.toList ++ m) = w.toList ++ m := by
    obtain ⟨x, c, hx, hc⟩ := hw.exists_concat hm
    rw [hx]
    simpa using trimEnd_concat (x := x) (b := []) hc (List.forall_mem_nil _)
  rw [cleanValue, hcomments, hraw]
  cases hcs : splitImportant cs with
  | none =>
    obtain rfl : m = [] := by
      rcases hm with hm | ⟨front, hm⟩
      · exact hm
      · rw [hm] at hcs
        cases hcs
    rw [List.append_nil]
    exact hw.trim_eq
  | some split =>
    rw [hcs] at hsplit
    rw [Option.isSome_some, if_pos rfl]
    dsimp only
    rw [hclean, hsplit]
    exact hw.trim_eq

end IsLetterWord

end PixelUnit.Sheet
