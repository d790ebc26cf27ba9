import PixelUnit.Proofs.Sheet.Lexing

/-!
# Words cut open

A word can be cut in the middle, and a name with a parenthesis can be put there. The front of the
word then ends in that name, as a word or, if it starts with an at sign, perhaps as an at-keyword
(`Lexeme.read_front`); an at-keyword right in front of the cut goes on into the name
(`Lexeme.read_keyword_front`). The tokens before stay what they are
(`Lexes.exchange_word`).
-/

namespace PixelUnit.Sheet

/-! ## Plain words -/

/-- Whether a character is an ordinary one of a word: it separates nothing, escapes nothing, and
starts neither a comment nor an at-keyword. -/
def isPlain (c : Char) : Bool :=
  !isSeparator (some c) && c != '\\' && c != '/' && c != '@'

theorem isPlain_iff {c : Char} : isPlain c = true ↔
    isSeparator (some c) = false ∧ c ≠ '\\' ∧ c ≠ '/' ∧ c ≠ '@' := by
  simp [isPlain, and_assoc]

theorem isPlain_of_not_mem {c : Char} (h : c ∉ '\\' :: '/' :: '@' :: separators) :
    isPlain c = true := by
  simp only [List.mem_cons, not_or] at h
  exact isPlain_iff.2 ⟨Bool.eq_false_iff.2 fun hsep => h.2.2.2 (mem_separators hsep), h.1, h.2.1,
    h.2.2.1⟩

theorem not_startsComment {c : Char} (hc : c ≠ '/') (d : Option Char) :
    startsComment (some c) d = false := by
  simp [startsComment, hc]

/-- A word goes on through all characters that neither separate nor escape, if no comment starts. -/
theorem splitWord_run {x r : List Char}
    (hx : ∀ c ∈ x, isSeparator (some c) = false ∧ c ≠ '\\')
    (hcomment : ∀ a b, x ≠ a ++ '/' :: '*' :: b) (hr : endsWord r = true) :
    splitWord (x ++ r) = (x, r) := by
  induction x with
  | nil => exact splitWord_of_endsWord hr
  | cons c x ih =>
    obtain ⟨⟨hsep, hslash⟩, hx⟩ := List.forall_mem_cons.1 hx
    have hstart : startsComment (some c) (x ++ r).head? = false := by
      refine Bool.eq_false_iff.2 fun hstart => ?_
      obtain ⟨rfl, hstar⟩ : c = '/' ∧ (x ++ r).head? = some '*' := by
        simpa [startsComment] using hstart
      cases x with
      | nil =>
        obtain ⟨s, rfl⟩ : ∃ s, r = '*' :: s := List.head?_eq_some_iff.1 hstar
        cases hr
      | cons d x =>
        obtain rfl : d = '*' := Option.some.inj hstar
        exact hcomment [] x rfl
    rw [List.cons_append, splitWord_cons hslash,
      ih hx fun a b hab => hcomment (c :: a) b (by rw [hab]; rfl), hsep, hstart,
      if_neg (by decide)]

namespace Lexeme

/-- Characters that neither separate nor escape make up a word. -/
theorem read_run {c : Char} {t r : List Char}
    (hct : ∀ d ∈ c :: t, isSeparator (some d) = false ∧ d ≠ '\\') (hat : c ≠ '@')
    (hcomment : ∀ a b, c :: t ≠ a ++ '/' :: '*' :: b) (hr : endsWord r = true)
    (hurl : isUrlName (c :: t) = true → opensUrl r = false) :
    read c (t ++ r) = .ok ⟨.word, c :: t, r, none⟩ := by
  have hwhole := splitWord_run hct hcomment hr
  obtain ⟨⟨hsep, hslash⟩, ht⟩ := List.forall_mem_cons.1 hct
  have hsplit := splitWord_run ht (fun a b hab => hcomment (c :: a) b (by rw [hab]; rfl)) hr
  rw [List.cons_append, splitWord_cons hslash, hsplit] at hwhole
  simp only [isSeparator, Bool.or_eq_false_iff] at hsep
  refine read_of_form (.word ⟨?_, hsep.1.2, hsep.2, ?_, fun h => absurd h hat⟩ hsplit ?_)
  · refine Bool.eq_false_iff.2 fun hstart => ?_
    rw [hstart, Bool.or_true, if_pos rfl] at hwhole
    cases (Prod.mk.inj hwhole).1
  · simpa using hsep.1.1
  · rintro ⟨hname, hopen⟩
    rw [hurl hname] at hopen
    cases hopen

end Lexeme

theorem not_mem_slash {x : List Char} (hx : ∀ c ∈ x, isPlain c = true) (a b : List Char) :
    x ≠ a ++ '/' :: '*' :: b := by
  rintro rfl
  exact absurd (hx '/' (by simp)) (by decide)

theorem splitWord_plain {x r : List Char} (hx : ∀ c ∈ x, isPlain c = true)
    (hr : endsWord r = true) : splitWord (x ++ r) = (x, r) :=
  splitWord_run (fun c hc => ⟨(isPlain_iff.1 (hx c hc)).1, (isPlain_iff.1 (hx c hc)).2.1⟩)
    (not_mem_slash hx) hr

/-- Plain characters make up a word. -/
theorem Lexeme.read_plain {c : Char} {t r : List Char} (hct : ∀ d ∈ c :: t, isPlain d = true)
    (hr : endsWord r = true) (hurl : isUrlName (c :: t) = true → opensUrl r = false) :
    Lexeme.read c (t ++ r) = .ok ⟨.word, c :: t, r, none⟩ :=
  read_run (fun d hd => ⟨(isPlain_iff.1 (hct d hd)).1, (isPlain_iff.1 (hct d hd)).2.1⟩)
    (isPlain_iff.1 (hct c List.mem_cons_self)).2.2.2 (not_mem_slash hct) hr hurl

theorem isPlain_of_isIdent {c : Char} (h : isIdent c = true) : isPlain c = true := by
  refine isPlain_iff.2 ⟨Bool.eq_false_iff.2 fun hsep => ?_, ?_, ?_, ?_⟩
  · rw [(separators_plain c (mem_separators hsep)).1] at h
    cases h
  all_goals
    rintro rfl
    exact absurd h (by decide +kernel)

theorem isUrlName_length {cs : List Char} (h : isUrlName cs = true) : cs.length = 3 := by
  have hlen := congrArg List.length (beq_iff_eq.1 h)
  simpa using hlen

/-! ## Names -/

/-- A name of a function, longer than `url`. -/
structure IsName (x : List Char) : Prop where
  ident : ∀ d ∈ x, isIdent d = true
  start : ∀ d ∈ x.head?, isIdentStart d = true
  long : 3 < x.length

namespace IsName

variable {x : List Char}

theorem plain (hx : IsName x) : ∀ d ∈ x, isPlain d = true :=
  fun d hd => isPlain_of_isIdent (hx.ident d hd)

theorem exists_cons (hx : IsName x) : ∃ d t, x = d :: t ∧ isIdentStart d = true := by
  obtain ⟨d, t, rfl⟩ := List.exists_cons_of_ne_nil (List.ne_nil_of_length_pos
    (Nat.lt_of_le_of_lt (Nat.zero_le 3) hx.long))
  exact ⟨d, t, rfl, hx.start d rfl⟩

theorem not_isUrlName (hx : IsName x) (p : List Char) : isUrlName (p ++ x) = false := by
  refine Bool.eq_false_iff.2 fun h => ?_
  have hlen := isUrlName_length h
  have hlong := hx.long
  rw [List.length_append] at hlen
  omega

end IsName

theorem isIdentStart_ne {d : Char} (h : isIdentStart d = true) :
    d ≠ '*' ∧ d ≠ '\n' ∧ d ≠ '\\' ∧ d ≠ '-' := by
  refine ⟨?_, ?_, ?_, ?_⟩ <;> rintro rfl <;> exact absurd h (by decide +kernel)

theorem isIdent_hyphen : isIdent '-' = true := by
  decide +kernel

/-- A name is read up to where an identifier ends. -/
theorem splitIdent_name {x r : List Char} (hx : ∀ d ∈ x, isIdent d = true)
    (hr : endsIdent r = true) : splitIdent (x ++ r) = (x, r) := by
  induction x with
  | nil => exact splitIdent_of_endsIdent hr
  | cons c x ih =>
    obtain ⟨hc, hx⟩ := List.forall_mem_cons.1 hx
    have hslash : c ≠ '\\' := by
      rintro rfl
      rw [isIdent_backslash] at hc
      cases hc
    rw [List.cons_append, splitIdent_cons hslash, if_pos hc, ih hx]

/-- A word goes on into a name that takes the place of its end. -/
theorem splitWord_exchange {x : List Char} (hx : IsName x) : ∀ {p l r y : List Char},
    splitWord (p ++ (l ++ r)) = (p ++ l, r) → l ≠ [] → endsWord y = true →
    splitWord (p ++ (x ++ y)) = (p ++ x, y)
  | [], _, _, y, _, _, hy => splitWord_plain hx.plain hy
  | [c], l, r, y, h, hl, hy => by
    obtain ⟨d, x', rfl, hd⟩ := hx.exists_cons
    have hplain := splitWord_plain (List.forall_mem_cons.1 hx.plain).2 hy
    -- A backslash takes the next character with it, here the first one of the name.
    by_cases hc : c = '\\'
    · subst hc
      rw [List.singleton_append, List.cons_append, splitWord_escape, hplain]
      rfl
    · have hwhole := splitWord_plain hx.plain hy
      rw [List.singleton_append, splitWord_cons hc] at h ⊢
      rw [hwhole]
      split at h
      · simp at h
      · next hsep =>
        rw [Bool.or_eq_true, not_or] at hsep
        rw [if_neg]
        · rfl
        · simp [hsep.1, startsComment, (isIdentStart_ne hd).1]
  | c :: d :: p, l, r, y, h, hl, hy => by
    -- A backslash and what it takes are both in front, so they are passed together.
    by_cases hc : c = '\\'
    · subst hc
      rw [List.cons_append, List.cons_append, splitWord_escape] at h ⊢
      have hrest : splitWord (p ++ (l ++ r)) = (p ++ l, r) := by simpa [Prod.ext_iff] using h
      rw [splitWord_exchange hx hrest hl hy]
      rfl
    · rw [List.cons_append, splitWord_cons hc] at h ⊢
      split at h
      · simp at h
      · next hsep =>
        have hrest : splitWord (d :: p ++ (l ++ r)) = (d :: p ++ l, r) := by
          simpa [Prod.ext_iff] using h
        rw [splitWord_exchange hx hrest hl hy, if_neg (by simpa using hsep)]
        rfl

/-! ## The front of a word -/

/-- A text that could be the rest of a word, but does not start an identifier. -/
def StartsNumber (l : List Char) : Prop :=
  ∃ d r, l = d :: r ∧ isIdentStart d = false ∧ d ≠ '-' ∧ d ≠ '\\' ∧ d ≠ '\n' ∧ d ≠ '*'

namespace Lexeme

/-- What stands between an at sign and a name does not make an at-keyword, unless it is nothing or
a hyphen. -/
theorem eq_of_startsIdent {p l x r y : List Char} (hl : StartsNumber l) (hx : IsName x)
    (hold : startsIdent (p ++ (l ++ r)).head? ((p ++ (l ++ r)).drop 1).head? = false)
    (hnew : startsIdent (p ++ (x ++ y)).head? ((p ++ (x ++ y)).drop 1).head? = true) :
    p = [] ∨ p = ['-'] := by
  obtain ⟨e, s, rfl, hstart, hdash, hslash, hfeed, -⟩ := hl
  obtain ⟨d, x', rfl, hd⟩ := hx.exists_cons
  match p with
  | [] => exact Or.inl rfl
  | [c] =>
    refine Or.inr ?_
    have hold' : startsIdent (some c) (some e) = false := hold
    have hnew' : startsIdent (some c) (some d) = true := hnew
    by_contra hc
    have hc : c ≠ '-' := fun h => hc (by rw [h])
    by_cases hcs : isIdentStart c = true
    · simp [startsIdent, hcs] at hold'
    · by_cases hcb : c = '\\'
      · subst hcb
        simp [startsIdent, hcs, isEscape, hfeed] at hold'
      · simp [startsIdent, hcs, hc, isEscape, hcb] at hnew'
  | c :: b :: p =>
    have hold' : startsIdent (some c) (some b) = false := hold
    have hnew' : startsIdent (some c) (some b) = true := hnew
    rw [hold'] at hnew'
    cases hnew'

/-- A word is read where nothing else starts. -/
theorem word_of_read {c : Char} {cs t r : List Char} {e : Option Fault.Cause}
    (h : read c cs = .ok ⟨.word, c :: t, r, e⟩) : StartsWord c cs ∧ splitWord cs = (t, r) := by
  generalize hl : (⟨.word, c :: t, r, e⟩ : Lexeme) = l at h
  cases form_of_read h with
  | word hc hs =>
    cases hl
    exact ⟨hc, hs⟩
  | punctuation hc =>
    obtain ⟨rfl, -⟩ := Lexeme.mk.inj hl
    unfold punctuation? at hc
    split at hc <;> cases hc
  | comment | spacing | string | badString | atKeyword | url => cases hl

/-- An at-keyword is an identifier behind an at sign. -/
theorem keyword_of_read {c : Char} {cs t r : List Char} {e : Option Fault.Cause}
    (h : read c cs = .ok ⟨.atKeyword, c :: t, r, e⟩) : c = '@' ∧ splitIdent cs = (t, r) ∧
      startsIdent cs.head? (cs.drop 1).head? = true := by
  generalize hl : (⟨.atKeyword, c :: t, r, e⟩ : Lexeme) = l at h
  cases form_of_read h with
  | atKeyword hc hs hstart =>
    cases hl
    exact ⟨hc, hs, hstart⟩
  | punctuation hc =>
    obtain ⟨rfl, -⟩ := Lexeme.mk.inj hl
    unfold punctuation? at hc
    split at hc <;> cases hc
  | comment | spacing | string | badString | word | url => cases hl

/-- Cut behind `p`, a word goes on into a name. Behind an at sign it may be an at-keyword then. -/
theorem read_front {c : Char} {t r p l x y : List Char}
    (h : read c (t ++ r) = .ok ⟨.word, c :: t, r, none⟩) (hp : c :: t = p ++ l)
    (hl : StartsNumber l) (hx : IsName x) (hy : endsWord y = true) :
    ∃ kind d u, (kind = .word ∨ kind = .atKeyword) ∧ p ++ x = d :: u ∧
      read d (u ++ y) = .ok ⟨kind, d :: u, y, none⟩ := by
  -- Nothing in front of the cut: the name is a word of its own.
  cases p with
  | nil =>
    obtain ⟨d, u, rfl, -⟩ := hx.exists_cons
    refine ⟨.word, d, u, Or.inl rfl, rfl, read_plain hx.plain hy fun hname => ?_⟩
    rw [show isUrlName (d :: u) = false from hx.not_isUrlName []] at hname
    cases hname
  | cons b p =>
    obtain rfl : c = b := (List.cons.inj hp).1
    obtain rfl : t = p ++ l := (List.cons.inj hp).2
    obtain ⟨hc, hs⟩ := word_of_read h
    rw [List.append_assoc] at hc hs
    have hlne : l ≠ [] := by
      obtain ⟨e, s, rfl, -⟩ := hl
      simp
    have hsplit := splitWord_exchange hx hs hlne hy
    rw [← List.append_assoc] at hsplit
    -- Behind an at sign, what the front and the name begin with decides whether this is an
    -- at-keyword.
    by_cases hat : c = '@' ∧
        startsIdent (p ++ (x ++ y)).head? ((p ++ (x ++ y)).drop 1).head? = true
    · refine ⟨.atKeyword, c, p ++ x, Or.inr rfl, rfl, read_of_form (.atKeyword hat.1 ?_ ?_)⟩
      · rcases eq_of_startsIdent hl hx (hc.noKeyword hat.1) hat.2 with rfl | rfl
        · exact splitIdent_name hx.ident (endsIdent_of_endsWord hy)
        · refine splitIdent_name (fun d hd => ?_) (endsIdent_of_endsWord hy)
          rcases List.mem_cons.1 hd with rfl | hd
          · exact isIdent_hyphen
          · exact hx.ident d hd
      · rw [List.append_assoc]
        exact hat.2
    · refine ⟨.word, c, p ++ x, Or.inl rfl, rfl, read_of_form (.word ⟨?_, hc.noSpacing, hc.noQuote,
        hc.noPunctuation, fun h => ?_⟩ hsplit ?_)⟩
      -- The name and the front open no comment, start with no at-keyword and are no name of an
      -- address.
      · cases p with
        | nil =>
          obtain ⟨d, u, rfl, hd⟩ := hx.exists_cons
          simp [startsComment, (isIdentStart_ne hd).1]
        | cons d p => exact hc.noComment
      · rw [List.append_assoc]
        exact Bool.eq_false_iff.2 fun hstart => hat ⟨h, hstart⟩
      · rintro ⟨hname, -⟩
        rw [← List.cons_append, hx.not_isUrlName] at hname
        cases hname

/-- An at-keyword goes on into an identifier behind it. -/
theorem read_keyword_front {c : Char} {k l x y : List Char}
    (h : read c (k ++ l) = .ok ⟨.atKeyword, c :: k, l, none⟩) (hx : ∀ d ∈ x, isIdent d = true)
    (hy : endsWord y = true) :
    read c (k ++ x ++ y) = .ok ⟨.atKeyword, c :: (k ++ x), y, none⟩ := by
  obtain ⟨rfl, hs, hstart⟩ := keyword_of_read h
  have hends : endsIdent l = true := by
    have hends := endsIdent_splitIdent (k ++ l)
    rwa [hs] at hends
  have hsplit := splitIdent_run hs (x ++ y)
  rw [splitIdent_name hx (endsIdent_of_endsWord hy), ← List.append_assoc] at hsplit
  refine read_of_form (.atKeyword rfl hsplit ?_)
  match k, hs, hstart with
  | [], _, hstart =>
    rw [List.nil_append, startsIdent_of_endsIdent hends] at hstart
    cases hstart
  | [b], hs, hstart =>
    have hslash : b ≠ '\\' := fun h => ne_backslash_of_splitIdent hs (by rw [h])
    obtain ⟨hlstart, hldash⟩ := isIdentStart_eq_false hends
    by_cases hb : isIdentStart b = true
    · simp [startsIdent, hb]
    · simp [startsIdent, hb, hlstart, beq_false_of_ne hldash, isEscape, hslash] at hstart
  | b :: e :: k, _, hstart => exact hstart

end Lexeme

/-! ## Tokens before a word -/

theorem exists_cons_of_endsWord {r : List Char} (h : endsWord r = false) :
    ∃ c s, r = c :: s ∧ isSeparator (some c) = false := by
  cases r with
  | nil => cases h
  | cons c s => exact ⟨c, s, rfl, (Bool.or_eq_false_iff.1 h).1⟩

theorem isSpacing_of_not_isSeparator {c : Char} (h : isSeparator (some c) = false) :
    isSpacing c = false ∧ isQuote c = false ∧ c ≠ '(' ∧ c ≠ '\n' := by
  have hboth := h
  simp only [isSeparator, Bool.or_eq_false_iff] at hboth
  refine ⟨hboth.1.2, hboth.2, ?_, ?_⟩ <;> rintro rfl <;> cases h

/-- What keeps an address from being opened before a word is seen before another word, too. -/
theorem opensUrl_alike {z r r' : List Char} (hr : endsWord r = false) (hr' : endsWord r' = false)
    (h : opensUrl (z ++ r) = false) : opensUrl (z ++ r') = false := by
  obtain ⟨c, s, rfl, hc⟩ := exists_cons_of_endsWord hr
  obtain ⟨c', s', rfl, hc'⟩ := exists_cons_of_endsWord hr'
  cases z with
  | nil =>
    refine opensUrl_of_head fun d hd => ?_
    obtain rfl := Option.some.inj hd
    exact (isSpacing_of_not_isSeparator hc').2.2.1
  | cons d z =>
    by_cases hd : d = '('
    · subst hd
      have hquote : ((z ++ c :: s).dropWhile isSpacing).head?.any isQuote = true := by
        simpa [opensUrl] using h
      have hsame : ∀ q : List Char, ((q ++ c :: s).dropWhile isSpacing).head?.any isQuote = true →
          ((q ++ c' :: s').dropWhile isSpacing).head?.any isQuote = true := by
        intro q hq
        induction q with
        | nil => simp [isSpacing_of_not_isSeparator hc] at hq
        | cons e q ih =>
          by_cases he : isSpacing e = true
          · simp only [List.cons_append, List.dropWhile_cons, he, if_true] at hq ⊢
            exact ih hq
          · simpa [List.dropWhile_cons, he] using hq
      simp [opensUrl, hsame z hquote]
    · exact opensUrl_of_head fun e he => by
        obtain rfl : d = e := Option.some.inj he
        exact hd

namespace Lexes

/-- An at-keyword is last among some tokens. -/
def EndsInKeyword (ts : List Token) : Prop :=
  ∃ t, ts.getLast? = some t ∧ t.kind = .atKeyword

/-- Tokens before a word stay what they are when another word takes its place; only an at-keyword
right before it must end there, too. -/
theorem exchange_word {q r r' : List Char} {qs ys xs : List Token}
    (h : Lexes (q ++ r) (qs ++ ys)) (hq : (rawText qs).toList = q) (hxs : Lexes r' xs)
    (hr : endsWord r = false) (hr' : endsWord r' = false)
    (hstar : r.head? = some '*' → r'.head? = some '*')
    (hkeyword : EndsInKeyword qs → endsIdent r' = true) : Lexes (q ++ r') (qs ++ xs) := by
  obtain ⟨c, s, rfl, hc⟩ := exists_cons_of_endsWord hr
  obtain ⟨c', s', rfl, hc'⟩ := exists_cons_of_endsWord hr'
  refine exchange_behind hxs h hq fun pre t post d u hqs _ hlex hread => ?_
  obtain ⟨hspacing, hword, hident⟩ := Lexeme.ahead_of_read hread
  -- Three kinds of lexemes look ahead. `z` is what stands between the lexeme and the word: where it
  -- has two characters or more, the word is not seen.
  refine Lexeme.read_congr (by simp) hread ⟨fun hk => ?_, fun hk => ⟨?_, fun _ hopen => ?_⟩,
    fun hk => ?_⟩
  all_goals generalize hz : (rawText post).toList = z at *
  · cases z with
    | nil =>
      intro e he
      obtain rfl := Option.some.inj he
      exact (isSpacing_of_not_isSeparator hc').1
    | cons e z => exact hspacing hk
  · obtain ⟨hends, -⟩ := hword hk
    -- Nothing in between: a word ends only where no word goes on.
    rcases z with _ | ⟨e, _ | ⟨f, z⟩⟩
    · rw [List.nil_append, hr] at hends
      cases hends
    -- One character in between: it separates, or opens a comment with the first of the word.
    · rcases Bool.or_eq_true_iff.1 hends with hsep | hcomment
      · exact Bool.or_eq_true_iff.2 (Or.inl hsep)
      · refine Bool.or_eq_true_iff.2 (Or.inr ?_)
        have hc : c = '*' := by
          have hboth : e = '/' ∧ c = '*' := by simpa [startsComment] using hcomment
          exact hboth.2
        have hc' : c' = '*' := by simpa using hstar (by rw [hc]; rfl)
        rw [hc']
        rwa [hc] at hcomment
    · exact hends
  · exact opensUrl_alike hr hr' hopen
  · have hends := hident hk
    rcases z with _ | ⟨e, _ | ⟨f, z⟩⟩
    · refine hkeyword ⟨t, ?_, hk⟩
      rw [hqs, ne_nil_of_rawText (by rwa [hz]) hz, List.getLast?_concat]
    · have hfeed : c ≠ '\n' := (isSpacing_of_not_isSeparator hc).2.2.2
      have hboth : isIdent e = false ∧ e ≠ '\\' := by
        simpa [endsIdent, isEscape, hfeed] using hends
      simp [endsIdent, isEscape, hboth.1, hboth.2]
    · exact hends

end Lexes

end PixelUnit.Sheet
