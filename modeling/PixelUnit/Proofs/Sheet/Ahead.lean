import Mathlib.Data.Bool.AllAny
import PixelUnit.Proofs.Sheet.Lexemes
import PixelUnit.Proofs.Text.Runs

/-!
# What lexemes see ahead

A lexeme ends where it does because of what comes behind it, and only little of that counts: a run
of white space ends before anything else, a word before a separator or a comment, and whether a
word is an address shows behind its opening parenthesis (`Lexeme.Ahead`). So a lexeme is the same
before a text that looks the same from where it stands (`Lexeme.read_congr`). A colon, a semicolon
or a closing brace hides all that comes behind it (`Lexeme.read_barrier`).
-/

namespace PixelUnit.Sheet

/-! ## Where words and identifiers end -/

/-- Whether a word ends before a text. -/
def endsWord (r : List Char) : Bool :=
  isSeparator r.head? || startsComment r.head? r.tail.head?

/-- Whether an identifier ends before a text. -/
def endsIdent (r : List Char) : Bool :=
  !r.head?.any isIdent && !isEscape r.head? r.tail.head?

theorem splitWord_escape (c : Char) (r : List Char) :
    splitWord ('\\' :: c :: r) = ('\\' :: c :: (splitWord r).1, (splitWord r).2) := rfl

theorem splitWord_cons {c : Char} (hc : c ≠ '\\') (r : List Char) :
    splitWord (c :: r) = if isSeparator (some c) || startsComment (some c) r.head? then ([], c :: r)
      else (c :: (splitWord r).1, (splitWord r).2) := by
  rw [splitWord]
  rintro d s rfl
  exact absurd rfl hc

theorem splitIdent_escape {c : Char} (hc : c ≠ '\n') (r : List Char) :
    splitIdent ('\\' :: c :: r) = ('\\' :: c :: (splitIdent r).1, (splitIdent r).2) := by
  rw [splitIdent, if_neg (by simpa using hc)]

theorem splitIdent_cons {c : Char} (hc : c ≠ '\\') (r : List Char) :
    splitIdent (c :: r) = if isIdent c then (c :: (splitIdent r).1, (splitIdent r).2)
      else ([], c :: r) := by
  rw [splitIdent]
  rintro d s rfl
  exact absurd rfl hc

/-- The characters that separate words. -/
def separators : List Char :=
  ['\x7b', '\x7d', '(', ')', '[', ']', ':', ';', ' ', '\t', '\n', '\r', '\x0c', '"', '\'']

/-- There are finitely many separators. -/
theorem mem_separators {c : Char} (h : isSeparator (some c) = true) : c ∈ separators := by
  simp only [isSeparator, isSpacing, isQuote, Bool.or_eq_true, beq_iff_eq] at h
  rcases h with (h | ((((rfl | rfl) | rfl) | rfl) | rfl)) | rfl | rfl
  · unfold punctuation? at h
    split at h <;> first | decide | cases h
  all_goals decide

/-- No separator stands in a word or an identifier, or starts a comment. -/
theorem separators_plain : ∀ c ∈ separators, isIdent c = false ∧ c ≠ '\\' ∧ c ≠ '*' ∧ c ≠ '/' ∧
    c ≠ '-' :=
  List.all_iff_forall_prop.1 (by decide +kernel)

theorem isSeparator_backslash : isSeparator (some '\\') = false := rfl

theorem isIdent_backslash : isIdent '\\' = false := by decide +kernel

/-- No word is read where one ends. -/
theorem splitWord_of_endsWord {r : List Char} (h : endsWord r = true) : splitWord r = ([], r) := by
  cases r with
  | nil => rfl
  | cons c r =>
    have hc : c ≠ '\\' := by
      rintro rfl
      simp [endsWord, isSeparator_backslash, startsComment] at h
    rw [splitWord_cons hc]
    exact if_pos h

/-- No identifier is read where one ends. -/
theorem splitIdent_of_endsIdent {r : List Char} (h : endsIdent r = true) :
    splitIdent r = ([], r) := by
  rw [endsIdent, Bool.and_eq_true, Bool.not_eq_true', Bool.not_eq_true'] at h
  cases r with
  | nil => rfl
  | cons c r =>
    by_cases hc : c = '\\'
    · subst hc
      cases r with
      | nil => simp [splitIdent, isIdent_backslash]
      | cons d r =>
        have hd : d = '\n' := by simpa [isEscape] using h.2
        rw [hd, splitIdent, if_pos (by rfl)]
    · rw [splitIdent_cons hc, if_neg (by simpa using h.1)]

/-- A word is read up to where it ends. -/
theorem endsWord_splitWord (cs : List Char) : endsWord (splitWord cs).2 = true := by
  fun_induction splitWord cs with
  | case1 => rfl
  | case2 c r t u hs ih => rwa [hs] at ih
  | case3 c r _ hc => exact hc
  | case4 c r _ hc t u hs ih => rwa [hs] at ih

/-- An identifier is read up to where it ends. -/
theorem endsIdent_splitIdent (cs : List Char) : endsIdent (splitIdent cs).2 = true := by
  fun_induction splitIdent cs with
  | case1 => rfl
  | case2 c r hc => simp [endsIdent, isEscape, isIdent_backslash, beq_iff_eq.1 hc]
  | case3 c r _ t u hs ih => rwa [hs] at ih
  | case4 c r _ hc t u hs ih => rwa [hs] at ih
  | case5 c r hslash hc =>
    have hescape : isEscape (some c) r.head? = false := by
      by_cases h : c = '\\'
      · cases r with
        | nil => simp [isEscape]
        | cons d r => exact (hslash d r h rfl).elim
      · simp [isEscape, h]
    simpa [endsIdent, hescape] using hc

/-- No text that ends a word makes a comment of its last character. -/
theorem startsComment_of_endsWord (c : Char) {r : List Char} (hr : endsWord r = true) :
    startsComment (some c) r.head? = false := by
  cases r with
  | nil => simp [startsComment]
  | cons e r =>
    have he : e ≠ '*' := by
      rintro rfl
      exact absurd hr (by simp [endsWord, isSeparator, punctuation?, isSpacing, isQuote,
        startsComment])
    simp [startsComment, he]

/-- A word ends in the same place before every text that ends it. -/
theorem splitWord_congr : ∀ {t r r' : List Char}, splitWord (t ++ r) = (t, r) → r ≠ [] →
    endsWord r' = true → splitWord (t ++ r') = (t, r')
  | [], _, _, _, _, hr' => splitWord_of_endsWord hr'
  | [c], r, r', h, hne, hr' => by
    obtain ⟨d, r, rfl⟩ := List.exists_cons_of_ne_nil hne
    have hc : c ≠ '\\' := by
      rintro rfl
      simp [splitWord_escape] at h
    have hstar := startsComment_of_endsWord c hr'
    rw [List.singleton_append, splitWord_cons hc] at h ⊢
    split at h
    · simp at h
    · next hsep =>
      rw [Bool.or_eq_true, not_or] at hsep
      rw [if_neg (by simp [hsep.1, hstar]), splitWord_of_endsWord hr']
  | c :: d :: t, r, r', h, hne, hr' => by
    by_cases hc : c = '\\'
    · subst hc
      rw [List.cons_append, List.cons_append, splitWord_escape] at h ⊢
      have hrest : splitWord (t ++ r) = (t, r) := by simpa [Prod.ext_iff] using h
      rw [splitWord_congr hrest hne hr']
    · rw [List.cons_append, splitWord_cons hc] at h ⊢
      split at h
      · simp at h
      · next hsep =>
        have hrest : splitWord (d :: t ++ r) = (d :: t, r) := by simpa [Prod.ext_iff] using h
        rw [splitWord_congr hrest hne hr', if_neg (by simpa using hsep)]

/-- An identifier goes on with whatever identifier comes where it ended. -/
theorem splitIdent_run : ∀ {t r : List Char}, splitIdent (t ++ r) = (t, r) → ∀ r' : List Char,
    splitIdent (t ++ r') = (t ++ (splitIdent r').1, (splitIdent r').2)
  | [], _, _, _ => rfl
  | c :: t, r, h, r' => by
    by_cases hc : c = '\\'
    · subst hc
      match t, h with
      | [], h =>
        cases r with
        | nil => simp [splitIdent, isIdent_backslash] at h
        | cons d r =>
          by_cases hd : d = '\n'
          · rw [hd] at h
            simp [splitIdent] at h
          · rw [List.singleton_append, splitIdent_escape hd] at h
            simp at h
      | d :: t, h =>
        by_cases hd : d = '\n'
        · rw [hd] at h
          simp [splitIdent] at h
        · rw [List.cons_append, List.cons_append, splitIdent_escape hd] at h ⊢
          have hrest : splitIdent (t ++ r) = (t, r) := by simpa [Prod.ext_iff] using h
          rw [splitIdent_run hrest r']
          rfl
    · rw [List.cons_append, splitIdent_cons hc] at h ⊢
      split at h
      · next hident =>
        have hrest : splitIdent (t ++ r) = (t, r) := by simpa [Prod.ext_iff] using h
        rw [splitIdent_run hrest r', if_pos hident]
        rfl
      · simp at h

/-- An identifier ends in the same place before every text that ends it. -/
theorem splitIdent_congr {t r r' : List Char} (h : splitIdent (t ++ r) = (t, r))
    (hr' : endsIdent r' = true) : splitIdent (t ++ r') = (t, r') := by
  rw [splitIdent_run h, splitIdent_of_endsIdent hr', List.append_nil]

/-! ## What is closed sees nothing ahead -/

/-- What is behind a comment plays no part in how it is read. -/
theorem splitComment_congr {cs t u : List Char} (h : splitComment cs = some (t, u))
    (u' : List Char) : splitComment (t ++ u') = some (t, u') := by
  fun_induction splitComment cs generalizing t u with
  | case1 => simp at h
  | case2 r =>
    simp only [Option.some.injEq, Prod.mk.injEq] at h
    rw [← h.1]
    rfl
  | case3 c r hclose ih =>
    obtain ⟨⟨t', v⟩, hs, he⟩ := Option.map_eq_some_iff.1 h
    obtain ⟨rfl, rfl⟩ := Prod.mk.inj he
    obtain ⟨body, hbody⟩ := splitComment_closed hs
    have happ := append_of_splitComment hs
    rw [List.cons_append, splitComment, ih hs]
    · rfl
    · rintro r' rfl hr'
      obtain ⟨d, s, rfl⟩ : ∃ d s, t' = d :: s := List.exists_cons_of_ne_nil (by simp [hbody])
      obtain ⟨rfl, -⟩ := List.cons.inj hr'
      exact hclose _ rfl happ.symm

/-- What is behind a string with an end plays no part in how it is read. -/
theorem splitString_congr {quote : Char} (hquote : quote ≠ '\\') {cs t u : List Char}
    (h : splitString quote cs = (t, u, none)) (u' : List Char) :
    splitString quote (t ++ u') = (t, u', none) := by
  fun_induction splitString quote cs generalizing t u with
  | case1 => simp at h
  | case2 => simp at h
  | case3 c r t' v e hs ih =>
    simp only [Prod.mk.injEq] at h
    obtain ⟨rfl, rfl, rfl⟩ := h
    simp [splitString, ih hs]
  | case4 c r hfeed hslash hc =>
    simp only [Prod.mk.injEq] at h
    rw [← h.1, List.singleton_append, splitString, if_pos hc]
    · exact hfeed
    · rintro d s rfl -
      exact hquote (beq_iff_eq.1 hc).symm
  | case5 c r hfeed hslash hc t' v e hs ih =>
    simp only [Prod.mk.injEq] at h
    obtain ⟨rfl, rfl, rfl⟩ := h
    rw [List.cons_append, splitString, if_neg hc, ih hs]
    · exact hfeed
    · rintro d s rfl -
      cases r with
      | nil => simp [splitString] at hs
      | cons d r => exact hslash d r rfl rfl

/-- What is behind an address with an end plays no part in how it is read. -/
theorem splitUrl_congr {cs t u : List Char} (h : splitUrl cs = (t, u, none)) (u' : List Char) :
    splitUrl (t ++ u') = (t, u', none) := by
  fun_induction splitUrl cs generalizing t u with
  | case1 => simp at h
  | case2 c r t' v e hs ih =>
    simp only [Prod.mk.injEq] at h
    obtain ⟨rfl, rfl, rfl⟩ := h
    simp [splitUrl, ih hs]
  | case3 c r hslash hc =>
    simp only [Prod.mk.injEq] at h
    rw [← h.1, List.singleton_append, splitUrl, if_pos hc]
    rintro d s rfl -
    cases hc
  | case4 c r hslash hc t' v e hs ih =>
    simp only [Prod.mk.injEq] at h
    obtain ⟨rfl, rfl, rfl⟩ := h
    rw [List.cons_append, splitUrl, if_neg hc, ih hs]
    rintro d s rfl -
    cases r with
    | nil => simp [splitUrl] at hs
    | cons d r => exact hslash d r rfl rfl

/-- What opens an address is decided before its end. -/
theorem opensUrl_congr {body r r' : List Char} :
    opensUrl ('(' :: (body ++ [')']) ++ r') = opensUrl ('(' :: (body ++ [')']) ++ r) := by
  have hdrop : ∀ s : List Char, ((body ++ [')'] ++ s).dropWhile isSpacing).head? =
      ((body ++ [')']).dropWhile isSpacing).head? := by
    intro s
    induction body with
    | nil => rfl
    | cons c body ih =>
      by_cases hc : isSpacing c = true
      · simpa [List.dropWhile_cons, hc] using ih
      · simp [hc]
  show (!(((body ++ [')']) ++ r').dropWhile isSpacing).head?.any isQuote) =
    !(((body ++ [')']) ++ r).dropWhile isSpacing).head?.any isQuote
  rw [hdrop, hdrop]

/-! ## Lexemes -/

namespace Lexeme

/-- Before `r'` a lexeme of a given class ends as it does before `r`. -/
structure Ahead (kind : Token.Kind) (name r r' : List Char) : Prop where
  spacing : kind = .spacing → ∀ c ∈ r'.head?, isSpacing c = false
  word : kind = .word → endsWord r' = true ∧
    (isUrlName name = true → opensUrl r = false → opensUrl r' = false)
  atKeyword : kind = .atKeyword → endsIdent r' = true

end Lexeme

/-- Where a word ends, an identifier does. -/
theorem endsIdent_of_endsWord {r : List Char} (h : endsWord r = true) : endsIdent r = true := by
  cases r with
  | nil => rfl
  | cons c r =>
    have hc : isIdent c = false ∧ c ≠ '\\' := by
      rcases Bool.or_eq_true_iff.1 h with h | h
      · obtain ⟨h1, h2, -⟩ := separators_plain c (mem_separators h)
        exact ⟨h1, h2⟩
      · obtain rfl : c = '/' := by
          simp only [startsComment, List.head?_cons, Bool.and_eq_true, beq_iff_eq,
            Option.some.injEq] at h
          exact h.1
        decide +kernel
    simp [endsIdent, isEscape, hc.1, hc.2]

/-- Where an identifier ends, none starts. -/
theorem isIdentStart_eq_false {r : List Char} (h : endsIdent r = true) :
    r.head?.any isIdentStart = false ∧ r.head? ≠ some '-' := by
  rw [endsIdent, Bool.and_eq_true, Bool.not_eq_true'] at h
  cases r with
  | nil => simp
  | cons c r =>
    have hc : isIdent c = false := by simpa using h.1
    rw [isIdent, Bool.or_eq_false_iff, Bool.or_eq_false_iff] at hc
    exact ⟨by simpa using hc.1.1, by simpa using hc.2⟩

/-- No identifier starts where one ends. -/
theorem startsIdent_of_endsIdent {r : List Char} (h : endsIdent r = true) :
    startsIdent r.head? (r.drop 1).head? = false := by
  obtain ⟨hstart, hdash⟩ := isIdentStart_eq_false h
  rw [endsIdent, Bool.and_eq_true, Bool.not_eq_true', Bool.not_eq_true'] at h
  rw [startsIdent, hstart, if_neg Bool.false_ne_true, if_neg (by simpa using hdash),
    List.drop_one]
  exact h.2

/-- Whether an identifier starts here is seen before the end of the identifier or the word. -/
theorem startsIdent_congr {t r r' : List Char} (ht : t ≠ ['\\']) (hr : endsIdent r = true)
    (hr' : endsIdent r' = true) :
    startsIdent (t ++ r').head? ((t ++ r').drop 1).head? =
      startsIdent (t ++ r).head? ((t ++ r).drop 1).head? := by
  match t, ht with
  | [], _ =>
    rw [List.nil_append, List.nil_append, startsIdent_of_endsIdent hr, startsIdent_of_endsIdent hr']
  | [c], ht =>
    have hslash : c ≠ '\\' := fun h => ht (by rw [h])
    obtain ⟨hstart, hdash⟩ := isIdentStart_eq_false hr
    obtain ⟨hstart', hdash'⟩ := isIdentStart_eq_false hr'
    simp only [List.singleton_append, List.head?_cons, List.drop_one, List.tail_cons, startsIdent,
      isEscape]
    rw [hstart, hstart', beq_false_of_ne hdash, beq_false_of_ne hdash',
      beq_false_of_ne (show some c ≠ some '\\' from fun h => hslash (Option.some.inj h))]
    simp
  | c :: d :: t, _ => rfl

namespace Lexeme

/-- A word that more text follows is no lone backslash: a backslash takes a character along. -/
theorem ne_backslash_of_splitWord {t r : List Char} (h : splitWord (t ++ r) = (t, r))
    (hr : r ≠ []) : t ≠ ['\\'] := by
  rintro rfl
  obtain ⟨d, r, rfl⟩ := List.exists_cons_of_ne_nil hr
  simp [splitWord_escape] at h

theorem ne_backslash_of_splitIdent {t r : List Char} (h : splitIdent (t ++ r) = (t, r)) :
    t ≠ ['\\'] := by
  rintro rfl
  cases r with
  | nil => simp [splitIdent, isIdent_backslash] at h
  | cons d r =>
    by_cases hd : d = '\n'
    · simp [splitIdent, hd] at h
    · simp [splitIdent_escape hd] at h

/-- What starts a word starts one before every text that ends the word. -/
theorem startsWord_congr {c : Char} {t r r' : List Char} (hc : StartsWord c (t ++ r))
    (ht : splitWord (t ++ r) = (t, r)) (hr : r ≠ []) (hr' : endsWord r' = true) :
    StartsWord c (t ++ r') := by
  have hends : endsWord r = true := by
    have h := endsWord_splitWord (t ++ r)
    rwa [ht] at h
  refine ⟨?_, hc.noSpacing, hc.noQuote, hc.noPunctuation, fun hat => ?_⟩
  · cases t with
    | cons d t => exact hc.noComment
    | nil => exact startsComment_of_endsWord c hr'
  · rw [startsIdent_congr (ne_backslash_of_splitWord ht hr) (endsIdent_of_endsWord hends)
      (endsIdent_of_endsWord hr')]
    exact hc.noKeyword hat

/-- An address that is closed is read the same before every text. -/
theorem form_url_congr {c : Char} {name r₁ v r cs : List Char} (hc : StartsWord c cs)
    (hs : splitWord cs = (name, '(' :: r₁)) (hname : isUrlName (c :: name) = true)
    (hu : splitUrl r₁ = (v, r, none)) (hopen : opensUrl ('(' :: r₁) = true)
    (hcs : name ++ '(' :: v ++ r = cs) (r' : List Char) :
    Form c (name ++ '(' :: v ++ r') ⟨.url, c :: (name ++ '(' :: v), r', none⟩ := by
  obtain ⟨body, rfl⟩ := splitUrl_closed hu
  have happ := splitUrl_append r₁
  rw [hu] at happ
  dsimp only at happ
  subst happ
  have hcs' : cs = name ++ '(' :: (body ++ [')'] ++ r) := by rw [← hcs]; simp
  have happ' : name ++ '(' :: (body ++ [')']) ++ r' = name ++ '(' :: (body ++ [')'] ++ r') := by
    simp
  rw [hcs'] at hs hc
  rw [happ']
  refine .url (startsWord_congr hc hs (by simp) rfl) (splitWord_congr hs (by simp) rfl) hname
    (splitUrl_congr hu r') ?_
  rw [← hopen]
  exact opensUrl_congr

/-- A lexeme is read the same before a text that looks the same from there. -/
theorem read_congr {kind : Token.Kind} {c : Char} {t r r' : List Char} (hr : r ≠ [])
    (h : read c (t ++ r) = .ok ⟨kind, c :: t, r, none⟩) (hahead : Ahead kind (c :: t) r r') :
    read c (t ++ r') = .ok ⟨kind, c :: t, r', none⟩ := by
  -- The lexeme is read off by its form, and each form looks ahead in its own way.
  generalize hl : (⟨kind, c :: t, r, none⟩ : Lexeme) = l at h
  generalize hcs : t ++ r = cs at h
  refine read_of_form ?_
  cases form_of_read h with
  | comment hc hopen hs =>
    cases hl
    exact .comment hc rfl (splitComment_congr hs r')
  | spacing hc =>
    cases hl
    have hrun : ∀ d ∈ cs.takeWhile isSpacing, isSpacing d = true := fun _ => List.mem_takeWhile_imp
    have hspacing : Form c (cs.takeWhile isSpacing ++ r') _ := .spacing hc
    rwa [Text.takeWhile_run hrun (hahead.spacing rfl),
      Text.dropWhile_run hrun (hahead.spacing rfl)] at hspacing
  | string hc hs =>
    cases hl
    have hquote : c ≠ '\\' := by
      rintro rfl
      cases hc
    exact .string hc (splitString_congr hquote hs r')
  | badString => cases hl
  | punctuation hc =>
    cases hl
    exact .punctuation hc
  | atKeyword hc hs hstart =>
    cases hl
    subst hcs
    have hends := endsIdent_splitIdent (t ++ r)
    rw [hs] at hends
    refine .atKeyword hc (splitIdent_congr hs (hahead.atKeyword rfl)) ?_
    rw [startsIdent_congr (ne_backslash_of_splitIdent hs) hends (hahead.atKeyword rfl)]
    exact hstart
  | @url name r₁ v w e hc hs hname hu hopen =>
    obtain ⟨rfl, hraw, rfl, rfl⟩ := Lexeme.mk.inj hl
    obtain rfl : t = name ++ '(' :: v := (List.cons.inj hraw).2
    exact form_url_congr hc hs hname hu hopen hcs r'
  | word hc hs hurl =>
    cases hl
    subst hcs
    obtain ⟨hends, hopens⟩ := hahead.word rfl
    refine .word (startsWord_congr hc hs hr hends) (splitWord_congr hs hr hends) ?_
    rintro ⟨hname, hopen⟩
    rw [hopens hname (Bool.eq_false_iff.2 fun h => hurl ⟨hname, h⟩)] at hopen
    cases hopen

/-- What a lexeme ends before. -/
theorem ahead_of_read {kind : Token.Kind} {c : Char} {t r : List Char} {e : Option Fault.Cause}
    (h : read c (t ++ r) = .ok ⟨kind, c :: t, r, e⟩) : Ahead kind (c :: t) r r := by
  generalize hl : (⟨kind, c :: t, r, e⟩ : Lexeme) = l at h
  generalize hcs : t ++ r = cs at h
  cases form_of_read h with
  | spacing hc =>
    cases hl
    exact ⟨fun _ _ => Text.eq_false_of_mem_head?_dropWhile, nofun, nofun⟩
  | atKeyword hc hs =>
    cases hl
    have hends := endsIdent_splitIdent cs
    rw [hs] at hends
    exact ⟨nofun, nofun, fun _ => hends⟩
  | word hc hs =>
    cases hl
    have hends := endsWord_splitWord cs
    rw [hs] at hends
    exact ⟨nofun, fun _ => ⟨hends, fun _ h => h⟩, nofun⟩
  | @punctuation k hc =>
    obtain ⟨rfl, -⟩ := Lexeme.mk.inj hl
    unfold punctuation? at hc
    split at hc <;> cases hc <;> exact ⟨nofun, nofun, nofun⟩
  | comment | string | badString | url =>
    cases hl
    exact ⟨nofun, nofun, nofun⟩

end Lexeme

/-! ## Barriers -/

/-- A text that ends the word before it and gives it no address. -/
structure Closes (x : List Char) : Prop where
  endsWord : endsWord x = true
  opensUrl : opensUrl x = false

/-- Only a parenthesis opens an address. -/
theorem opensUrl_of_head {r : List Char} (h : ∀ c ∈ r.head?, c ≠ '(') : opensUrl r = false := by
  unfold opensUrl
  split
  · exact absurd rfl (h _ rfl)
  · rfl

theorem closes_nil : Closes [] := ⟨rfl, rfl⟩

/-- Separators other than an opening parenthesis close what is before them. -/
theorem closes_of_separator {x : List Char}
    (h : ∀ c ∈ x.head?, isSeparator (some c) = true ∧ c ≠ '(') : Closes x where
  endsWord := by
    cases x with
    | nil => rfl
    | cons c x => rw [endsWord, List.head?_cons, (h c rfl).1, Bool.true_or]
  opensUrl := opensUrl_of_head fun c hc => (h c hc).2

/-- A colon, a semicolon or a closing brace. -/
def IsBarrier (b : Char) : Prop :=
  b = ':' ∨ b = ';' ∨ b = '\x7d'

/-- A text that starts with a barrier closes the word before it. -/
theorem closes_of_barrier {b : Char} (hb : IsBarrier b) (y : List Char) :
    Closes (b :: y) := by
  refine closes_of_separator fun c hc => ?_
  obtain rfl := Option.some.inj hc
  rcases hb with rfl | rfl | rfl <;> exact ⟨rfl, by decide⟩

/-- Where nothing but a quote after white space keeps an address from being opened, the quote is
seen before a barrier. -/
theorem opensUrl_barrier {b : Char} (hb : IsBarrier b) {p x y : List Char} (hx : Closes x)
    (h : opensUrl (p ++ b :: y) = false) : opensUrl (p ++ x) = false := by
  cases p with
  | nil => exact hx.opensUrl
  | cons c p =>
    by_cases hc : c = '('
    · subst hc
      have hquote : ((p ++ b :: y).dropWhile isSpacing).head?.any isQuote = true := by
        simpa [opensUrl] using h
      have hsame : ∀ q : List Char, ((q ++ b :: y).dropWhile isSpacing).head?.any isQuote = true →
          ((q ++ x).dropWhile isSpacing).head?.any isQuote = true := by
        intro q hq
        induction q with
        | nil =>
          rcases hb with rfl | rfl | rfl <;> cases hq
        | cons d q ih =>
          by_cases hd : isSpacing d = true
          · simp only [List.cons_append, List.dropWhile_cons, hd, if_true] at hq ⊢
            exact ih hq
          · simpa [List.dropWhile_cons, hd] using hq
      simp [opensUrl, hsame p hquote]
    · exact opensUrl_of_head fun d hd => by
        obtain rfl : c = d := Option.some.inj hd
        exact hc

/-- A word that ends before a barrier ends before a text that closes it. -/
theorem endsWord_barrier {b : Char} (hb : IsBarrier b) {p x y : List Char} (hx : Closes x)
    (h : endsWord (p ++ b :: y) = true) : endsWord (p ++ x) = true := by
  match p, h with
  | [], _ => exact hx.endsWord
  | [c], h =>
    have hstar : startsComment (some c) (some b) = false := by
      rcases hb with rfl | rfl | rfl <;> simp [startsComment]
    have hc : isSeparator (some c) = true := by
      simpa [endsWord, hstar] using h
    simp [endsWord, hc]
  | c :: d :: p, h => exact h

/-- An identifier that ends before a barrier ends before a text that closes it. -/
theorem endsIdent_barrier {b : Char} (hb : IsBarrier b) {p x y : List Char} (hx : Closes x)
    (h : endsIdent (p ++ b :: y) = true) : endsIdent (p ++ x) = true := by
  match p, h with
  | [], _ => exact endsIdent_of_endsWord hx.endsWord
  | [c], h =>
    have hb' : b ≠ '\n' := by rcases hb with rfl | rfl | rfl <;> decide
    have hc : isIdent c = false ∧ c ≠ '\\' := by
      simpa [endsIdent, isEscape, hb'] using h
    simp [endsIdent, isEscape, hc.1, hc.2]
  | c :: d :: p, h => exact h

/-- What stands behind a barrier does not count for the lexemes before it; they are
the same if another text that closes them stands there. -/
theorem Lexeme.read_barrier {kind : Token.Kind} {c b : Char} {t p x y : List Char}
    (hb : IsBarrier b)
    (h : read c (t ++ (p ++ b :: y)) = .ok ⟨kind, c :: t, p ++ b :: y, none⟩) (hx : Closes x)
    (hspacing : kind = .spacing → p = [] → ∀ d ∈ x.head?, isSpacing d = false) :
    read c (t ++ (p ++ x)) = .ok ⟨kind, c :: t, p ++ x, none⟩ := by
  obtain ⟨hspace, hword, hat⟩ := ahead_of_read h
  refine read_congr (by simp) h ⟨fun hk => ?_, fun hk => ?_, fun hk => ?_⟩
  · cases p with
    | nil => exact hspacing hk rfl
    | cons d p => exact hspace hk
  · exact ⟨endsWord_barrier hb hx (hword hk).1, fun _ h => opensUrl_barrier hb hx h⟩
  · exact endsIdent_barrier hb hx (hat hk)

end PixelUnit.Sheet
