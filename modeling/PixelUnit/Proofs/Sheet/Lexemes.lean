import PixelUnit.Sheet.Scanner

/-!
# Forms of lexemes

`Lexeme.Form` lists the ways in which a lexeme is read, each with the text it takes, and
`Lexeme.form_of_read` says that there are no others. From it follow the marks that a token of each
class starts and ends with (`Lexeme.marks_of_read`), and that a line feed at the end of a lexeme
that is neither white space nor an address without an end is escaped
(`Lexeme.feedEscaped_of_read`).

`Scanner.reads_scan` carries this over to all tokens of a source: their texts, joined, are the
source, each token comes from a lexeme, and what is wrong with a lexeme is noted.
-/

namespace PixelUnit.Sheet

/-! ## Line feeds at the end of a text -/

/-- A line feed at the end of a text has a backslash before it. -/
def FeedEscaped (cs : List Char) : Prop :=
  cs.getLast? = some '\n' → ∃ front, cs = front ++ ['\\', '\n']

theorem feedEscaped_nil : FeedEscaped [] := by
  intro h
  simp at h

theorem feedEscaped_concat (cs : List Char) {c : Char} (hc : c ≠ '\n') :
    FeedEscaped (cs ++ [c]) := by
  intro h
  rw [List.getLast?_concat] at h
  exact absurd (Option.some.inj h) hc

/-- The end of a text decides, unless it is all of it. -/
theorem FeedEscaped.append (cs : List Char) {ds : List Char} (h : FeedEscaped ds) (hne : ds ≠ []) :
    FeedEscaped (cs ++ ds) := by
  intro hlast
  have hlast : ds.getLast? = some '\n' := by
    simpa [List.getLast?_append, List.getLast?_eq_some_getLast hne] using hlast
  obtain ⟨front, hfront⟩ := h hlast
  exact ⟨cs ++ front, by rw [hfront, List.append_assoc]⟩

theorem FeedEscaped.cons {c : Char} {cs : List Char} (hc : c ≠ '\n') (h : FeedEscaped cs) :
    FeedEscaped (c :: cs) := by
  rcases List.eq_nil_or_concat cs with rfl | ⟨ds, d, rfl⟩
  · exact feedEscaped_concat [] hc
  · exact h.append [c] (by simp)

theorem FeedEscaped.escape {c : Char} {cs : List Char} (h : FeedEscaped cs) :
    FeedEscaped ('\\' :: c :: cs) := by
  rcases List.eq_nil_or_concat cs with rfl | ⟨ds, d, rfl⟩
  · intro hlast
    obtain rfl : c = '\n' := by simpa using hlast
    exact ⟨[], rfl⟩
  · exact h.append ['\\', c] (by simp)

/-! ## What splitters take -/

/-- A comment ends in its closing mark. -/
theorem splitComment_closed {cs t u : List Char} (h : splitComment cs = some (t, u)) :
    ∃ body, t = body ++ ['*', '/'] := by
  fun_induction splitComment cs generalizing t u with
  | case1 => simp at h
  | case2 r =>
    simp only [Option.some.injEq, Prod.mk.injEq] at h
    exact ⟨[], h.1.symm⟩
  | case3 c r _ ih =>
    obtain ⟨⟨t', u'⟩, hs, he⟩ := Option.map_eq_some_iff.1 h
    obtain ⟨body, rfl⟩ := ih hs
    simp only [Prod.mk.injEq] at he
    exact ⟨c :: body, by rw [← he.1, List.cons_append]⟩

/-- A string without a fault ends in its quote. -/
theorem splitString_closed {quote : Char} {cs t u : List Char}
    (h : splitString quote cs = (t, u, none)) : ∃ body, t = body ++ [quote] := by
  fun_induction splitString quote cs generalizing t u with
  | case1 => simp at h
  | case2 => simp at h
  | case3 c r t' u' e hs ih =>
    simp only [Prod.mk.injEq] at h
    obtain ⟨rfl, rfl, rfl⟩ := h
    obtain ⟨body, rfl⟩ := ih hs
    exact ⟨'\\' :: c :: body, rfl⟩
  | case4 c r _ _ hc =>
    simp only [Prod.mk.injEq] at h
    exact ⟨[], by rw [← h.1, beq_iff_eq.1 hc, List.nil_append]⟩
  | case5 c r _ _ _ t' u' e hs ih =>
    simp only [Prod.mk.injEq] at h
    obtain ⟨rfl, rfl, rfl⟩ := h
    obtain ⟨body, rfl⟩ := ih hs
    exact ⟨c :: body, rfl⟩

/-- An address without a fault ends in its parenthesis. -/
theorem splitUrl_closed {cs t u : List Char} (h : splitUrl cs = (t, u, none)) :
    ∃ body, t = body ++ [')'] := by
  fun_induction splitUrl cs generalizing t u with
  | case1 => simp at h
  | case2 c r t' u' e hs ih =>
    simp only [Prod.mk.injEq] at h
    obtain ⟨rfl, rfl, rfl⟩ := h
    obtain ⟨body, rfl⟩ := ih hs
    exact ⟨'\\' :: c :: body, rfl⟩
  | case3 c r _ hc =>
    simp only [Prod.mk.injEq] at h
    exact ⟨[], by rw [← h.1, beq_iff_eq.1 hc, List.nil_append]⟩
  | case4 c r _ _ t' u' e hs ih =>
    simp only [Prod.mk.injEq] at h
    obtain ⟨rfl, rfl, rfl⟩ := h
    obtain ⟨body, rfl⟩ := ih hs
    exact ⟨c :: body, rfl⟩

/-- A string is broken off by the end of the text or by a line feed. -/
theorem splitString_fault {quote : Char} {cs : List Char} {e : Fault.Cause}
    (h : (splitString quote cs).2.2 = some e) : e = .unclosedString ∨ e = .brokenString := by
  fun_induction splitString quote cs with
  | case1 => exact Or.inl (Option.some.inj h).symm
  | case2 => exact Or.inr (Option.some.inj h).symm
  | case3 c r t u e' hs ih => exact ih (by rwa [hs])
  | case4 => cases h
  | case5 c r _ _ _ t u e' hs ih => exact ih (by rwa [hs])

/-- Nothing but its end can be missing from an address. -/
theorem splitUrl_fault {cs t u : List Char} {e : Option Fault.Cause}
    (h : splitUrl cs = (t, u, e)) : e = none ∨ e = some .unclosedUrl := by
  fun_induction splitUrl cs generalizing t u e with
  | case1 =>
    simp only [Prod.mk.injEq] at h
    exact Or.inr h.2.2.symm
  | case2 c r t' u' e' hs ih =>
    simp only [Prod.mk.injEq] at h
    exact h.2.2 ▸ ih hs
  | case3 =>
    simp only [Prod.mk.injEq] at h
    exact Or.inl h.2.2.symm
  | case4 c r _ _ t' u' e' hs ih =>
    simp only [Prod.mk.injEq] at h
    exact h.2.2 ▸ ih hs

/-- A line feed at the end of a string is escaped. -/
theorem splitString_feedEscaped {quote : Char} (hq : quote ≠ '\n') (cs : List Char) :
    FeedEscaped (splitString quote cs).1 := by
  fun_induction splitString quote cs with
  | case1 => exact feedEscaped_nil
  | case2 => exact feedEscaped_nil
  | case3 c r t u e hs ih => exact (hs ▸ ih).escape
  | case4 c r _ _ hc => exact feedEscaped_concat [] (beq_iff_eq.1 hc ▸ hq)
  | case5 c r hfeed _ _ t u e hs ih =>
    exact (hs ▸ ih).cons hfeed

/-- A line feed at the end of a word is escaped. -/
theorem splitWord_feedEscaped (cs : List Char) : FeedEscaped (splitWord cs).1 := by
  fun_induction splitWord cs with
  | case1 => exact feedEscaped_nil
  | case2 c r t u hs ih => exact (hs ▸ ih).escape
  | case3 => exact feedEscaped_nil
  | case4 c r _ hc t u hs ih =>
    refine (hs ▸ ih).cons fun hfeed => hc ?_
    rw [hfeed]
    rfl

theorem isIdent_lineFeed : isIdent '\n' = false := by
  decide +kernel

/-- A line feed at the end of an identifier is escaped. -/
theorem splitIdent_feedEscaped (cs : List Char) : FeedEscaped (splitIdent cs).1 := by
  fun_induction splitIdent cs with
  | case1 => exact feedEscaped_nil
  | case2 => exact feedEscaped_nil
  | case3 c r _ t u hs ih => exact (hs ▸ ih).escape
  | case4 c r _ hc t u hs ih =>
    refine (hs ▸ ih).cons fun hfeed => ?_
    rw [hfeed, isIdent_lineFeed] at hc
    exact absurd hc Bool.false_ne_true
  | case5 => exact feedEscaped_nil

/-! ## The forms -/

theorem isQuote_iff {c : Char} : isQuote c = true ↔ c = '"' ∨ c = '\'' := by
  simp [isQuote]

/-- Nothing but a word or an address starts with `c`, when `cs` follows. -/
structure StartsWord (c : Char) (cs : List Char) : Prop where
  noComment : startsComment (some c) cs.head? = false
  noSpacing : isSpacing c = false
  noQuote : isQuote c = false
  noPunctuation : punctuation? c = none
  noKeyword : c = '@' → startsIdent cs.head? (cs.drop 1).head? = false

/-- The ways in which a lexeme is read off a text that starts with `c`. -/
inductive Lexeme.Form (c : Char) (cs : List Char) : Lexeme → Prop
  | comment {r t u : List Char} (hc : c = '/') (hcs : cs = '*' :: r)
      (hs : splitComment r = some (t, u)) : Form c cs ⟨.comment, c :: '*' :: t, u, none⟩
  | spacing (hc : isSpacing c = true) :
      Form c cs ⟨.spacing, c :: cs.takeWhile isSpacing, cs.dropWhile isSpacing, none⟩
  | string {t u : List Char} (hc : isQuote c = true) (hs : splitString c cs = (t, u, none)) :
      Form c cs ⟨.string, c :: t, u, none⟩
  | badString {t u : List Char} {e : Fault.Cause} (hc : isQuote c = true)
      (hs : splitString c cs = (t, u, some e)) : Form c cs ⟨.badString, c :: t, u, some e⟩
  | punctuation {kind : Token.Kind} (hc : punctuation? c = some kind) :
      Form c cs ⟨kind, [c], cs, none⟩
  | atKeyword {t u : List Char} (hc : c = '@') (hs : splitIdent cs = (t, u))
      (hstart : startsIdent cs.head? (cs.drop 1).head? = true) :
      Form c cs ⟨.atKeyword, c :: t, u, none⟩
  | url {t r v w : List Char} {e : Option Fault.Cause} (hc : StartsWord c cs)
      (hs : splitWord cs = (t, '(' :: r)) (hname : isUrlName (c :: t) = true)
      (hu : splitUrl r = (v, w, e)) (hopen : opensUrl ('(' :: r) = true) :
      Form c cs ⟨.url, c :: t ++ '(' :: v, w, e⟩
  | word {t u : List Char} (hc : StartsWord c cs) (hs : splitWord cs = (t, u))
      (hurl : ¬(isUrlName (c :: t) = true ∧ opensUrl u = true)) :
      Form c cs ⟨.word, c :: t, u, none⟩

/-- A word, or an address if its name and what follows it say so. -/
theorem Lexeme.form_word {c : Char} {cs : List Char} (hc : StartsWord c cs) :
    Lexeme.Form c cs (Lexeme.word c cs) := by
  unfold Lexeme.word
  split
  rename_i t u hs
  split
  · rename_i hurl
    rw [Bool.and_eq_true] at hurl
    obtain ⟨r, rfl⟩ : ∃ r, u = '(' :: r := by
      unfold opensUrl at hurl
      split at hurl
      · exact ⟨_, rfl⟩
      · exact absurd hurl.2 Bool.false_ne_true
    split
    rename_i v w e hu
    simpa using Form.url hc hs hurl.1 hu hurl.2
  · rename_i hurl
    exact .word hc hs (by simpa using hurl)

/-- What starts as a word is read as one, or as an address. -/
theorem Lexeme.read_of_startsWord {c : Char} {cs : List Char} (h : StartsWord c cs) :
    Lexeme.read c cs = .ok (Lexeme.word c cs) := by
  unfold Lexeme.read
  rw [if_neg (by simp [h.noComment]), if_neg (by simp [h.noSpacing]), if_neg (by simp [h.noQuote]),
    h.noPunctuation]
  dsimp only
  rw [if_neg]
  rw [Bool.and_eq_true, beq_iff_eq]
  rintro ⟨rfl, hstart⟩
  rw [h.noKeyword rfl] at hstart
  cases hstart

/-- There are no other lexemes. -/
theorem Lexeme.form_of_read {c : Char} {cs : List Char} {l : Lexeme}
    (h : Lexeme.read c cs = .ok l) : Lexeme.Form c cs l := by
  unfold Lexeme.read at h
  split at h
  · rename_i hcomment
    simp only [startsComment, Bool.and_eq_true, beq_iff_eq, Option.some.injEq] at hcomment
    obtain ⟨r, rfl⟩ := List.head?_eq_some_iff.1 hcomment.2
    split at h
    · rename_i t u hs
      cases h
      exact .comment hcomment.1 rfl hs
    · cases h
  · rename_i hcomment
    split at h
    · rename_i hspacing
      cases h
      exact .spacing hspacing
    · rename_i hspacing
      split at h
      · rename_i hquote
        split at h <;> rename_i hs <;> cases h
        · exact .string hquote hs
        · exact .badString hquote hs
      · rename_i hquote
        split at h
        · rename_i hpunct
          cases h
          exact .punctuation hpunct
        · rename_i hpunct
          split at h
          · rename_i hat
            cases h
            rw [Bool.and_eq_true, beq_iff_eq] at hat
            exact .atKeyword hat.1 rfl hat.2
          · rename_i hat
            cases h
            refine form_word ⟨by simpa using hcomment, by simpa using hspacing,
              by simpa using hquote, hpunct, ?_⟩
            rintro rfl
            simpa using hat

/-- What has one of the forms is read. -/
theorem Lexeme.read_of_form {c : Char} {cs : List Char} {l : Lexeme}
    (h : Lexeme.Form c cs l) : Lexeme.read c cs = .ok l := by
  have hcomment : ∀ {d : Char}, d ≠ '/' → startsComment (some d) cs.head? = false := by
    intro d hd
    simp [startsComment, hd]
  -- In each of the forms, the tests before the one that succeeds fail because of the first
  -- character.
  cases h with
  | comment hc hcs hs =>
    subst hc hcs
    unfold Lexeme.read
    rw [if_pos (by rfl)]
    simp [hs]
  | spacing hc =>
    have hne : c ≠ '/' := by
      rintro rfl
      cases hc
    unfold Lexeme.read
    rw [if_neg (by simp [hcomment hne]), if_pos hc]
  | string hc hs | badString hc hs =>
    have hne : c ≠ '/' := by
      rintro rfl
      cases hc
    have hspacing : isSpacing c = false := by
      rcases isQuote_iff.1 hc with rfl | rfl <;> rfl
    unfold Lexeme.read
    rw [if_neg (by simp [hcomment hne]), if_neg (by simp [hspacing]), if_pos hc, hs]
  | punctuation hc =>
    have hne : c ≠ '/' := by
      rintro rfl
      cases hc
    have hclass : isSpacing c = false ∧ isQuote c = false := by
      unfold punctuation? at hc
      split at hc <;> first | exact ⟨rfl, rfl⟩ | cases hc
    unfold Lexeme.read
    rw [if_neg (by simp [hcomment hne]), if_neg (by simp [hclass.1]), if_neg (by simp [hclass.2]),
      hc]
  | atKeyword hc hs hstart =>
    subst hc
    unfold Lexeme.read
    rw [if_neg (by simp [hcomment (show '@' ≠ '/' by decide)]), if_neg (by decide),
      if_neg (by decide), show punctuation? '@' = none from rfl]
    dsimp only
    rw [hstart, if_pos (by rfl), hs]
  | url hc hs hname hu hopen =>
    rw [read_of_startsWord hc, Lexeme.word, hs]
    dsimp only
    rw [if_pos (by simp [hname, hopen]), List.drop_one, List.tail_cons, hu]
    simp
  | word hc hs hurl =>
    rw [read_of_startsWord hc, Lexeme.word, hs]
    dsimp only
    rw [if_neg (by simpa using hurl)]

/-! ## Marks of the classes -/

/-- The marks that the text of a token of a class has at its ends. -/
def Token.Kind.Marks (raw : List Char) : Token.Kind → Prop
  | .comment => ∃ body, raw = '/' :: '*' :: body ++ ['*', '/']
  | .atKeyword => ∃ name, raw = '@' :: name
  | .string => ∃ quote body, isQuote quote = true ∧ raw = quote :: body ++ [quote]
  | .spacing => ∀ c ∈ raw, Sheet.isSpacing c = true
  | .openBrace => raw = ['\x7b']
  | .closeBrace => raw = ['\x7d']
  | .semicolon => raw = [';']
  | .colon => raw = [':']
  | .ending => False
  | _ => True

theorem marks_of_punctuation {c : Char} {kind : Token.Kind} (h : punctuation? c = some kind) :
    kind.Marks [c] := by
  unfold punctuation? at h
  split at h <;> cases h <;> simp [Token.Kind.Marks]

/-- The text of a lexeme has the marks of its class. -/
theorem Lexeme.marks_of_read {c : Char} {cs : List Char} {l : Lexeme}
    (h : Lexeme.read c cs = .ok l) : l.kind.Marks l.raw := by
  cases Lexeme.form_of_read h with
  | comment hc hcs hs =>
    obtain ⟨body, rfl⟩ := splitComment_closed hs
    exact ⟨body, by rw [hc]; rfl⟩
  | spacing hc =>
    intro d hd
    rcases List.mem_cons.1 hd with rfl | hd
    · exact hc
    · exact List.all_eq_true.1 List.all_takeWhile d hd
  | string hc hs =>
    obtain ⟨body, rfl⟩ := splitString_closed hs
    exact ⟨c, body, hc, rfl⟩
  | punctuation hc => exact marks_of_punctuation hc
  | atKeyword hc hs => exact ⟨_, by rw [hc]⟩
  | badString | url | word => trivial

theorem quote_ne_lineFeed {c : Char} (h : isQuote c = true) : c ≠ '\n' := by
  rintro rfl
  exact absurd h (by decide)

/-- A line feed at the end of what is no white space is escaped, unless it stands in an address
without an end. -/
theorem Lexeme.feedEscaped_of_read {c : Char} {cs : List Char} {l : Lexeme}
    (h : Lexeme.read c cs = .ok l) (hkind : l.kind ≠ .spacing)
    (hurl : l.fault ≠ some .unclosedUrl) : FeedEscaped l.raw := by
  cases Lexeme.form_of_read h with
  | comment hc hcs hs =>
    obtain ⟨body, rfl⟩ := splitComment_closed hs
    simpa using feedEscaped_concat (c :: '*' :: body ++ ['*']) (show '/' ≠ '\n' by decide)
  | spacing hc => exact absurd rfl hkind
  | string hc hs | badString hc hs =>
    have hq := quote_ne_lineFeed hc
    exact (hs ▸ splitString_feedEscaped hq cs).cons hq
  | punctuation hc =>
    refine feedEscaped_concat [] ?_
    rintro rfl
    simp [punctuation?] at hc
  | atKeyword hc hs => exact (hs ▸ splitIdent_feedEscaped cs).cons (by rw [hc]; decide)
  | @url t r v w e hc hs hname hu =>
    rcases splitUrl_fault hu with rfl | rfl
    · obtain ⟨body, rfl⟩ := splitUrl_closed hu
      simpa using feedEscaped_concat (c :: t ++ '(' :: body) (show ')' ≠ '\n' by decide)
    · exact absurd rfl hurl
  | word hc hs _ =>
    refine (hs ▸ splitWord_feedEscaped cs).cons ?_
    rintro rfl
    exact absurd hc.noSpacing (by decide)

/-! ## All tokens of a source -/

/-- How the tokens of a text that stands at a place are read one after the other; what is wrong
with them is among `noted`. -/
inductive Scanner.Reads (noted : List Fault) : Position → List Char → List Token → Prop
  | done {pos : Position} : Reads noted pos [] []
  | token {pos : Position} {c : Char} {cs : List Char} {l : Lexeme} {ts : List Token}
      (hread : Lexeme.read c cs = .ok l) (hnoted : ∀ e, l.fault = some e → ⟨e, pos⟩ ∈ noted)
      (hrest : Reads noted (pos.advance l.raw) l.rest ts) :
      Reads noted pos (c :: cs) (⟨l.kind, String.ofList l.raw, pos⟩ :: ts)

namespace Scanner

/-- The scanner behind a lexeme. -/
def past (s : Scanner) (l : Lexeme) : Scanner where
  rest := l.rest
  index := s.index + l.raw.length
  pos := s.pos.advance l.raw
  faults := s.faults ++ (l.fault.map (⟨·, s.pos⟩)).toList

/-- A token is given exactly where a lexeme is read. -/
theorem consume_ok {s s' : Scanner} {t : Token} (h : s.rest ≠ [])
    (hs : s.consume = (.ok t, s')) :
    ∃ c r l, s.rest = c :: r ∧ Lexeme.read c r = .ok l ∧
      t = ⟨l.kind, String.ofList l.raw, s.pos⟩ ∧ s' = s.past l := by
  unfold consume at hs
  split at hs
  · contradiction
  · rename_i c r hrest
    split at hs
    · cases hs
    · rename_i l hl
      cases hs
      exact ⟨c, r, l, hrest, hl, rfl, rfl⟩

theorem scan_nil {s : Scanner} (h : s.rest = []) : s.scan = ⟨[], none, s⟩ := by
  rw [scan, dif_pos h]

theorem scan_ok {s s' : Scanner} {t : Token} (h : s.rest ≠ []) (hs : s.consume = (.ok t, s')) :
    s.scan = ⟨t :: s'.scan.tokens, s'.scan.failure, s'.scan.final⟩ := by
  rw [scan, dif_neg h]
  split <;> rename_i heq <;> rw [hs] at heq <;> cases heq
  rfl

theorem scan_error {s s' : Scanner} {e : Fault} (h : s.rest ≠ [])
    (hs : s.consume = (.error e, s')) : s.scan = ⟨[], some e, s'⟩ := by
  rw [scan, dif_neg h]
  split <;> rename_i heq <;> rw [hs] at heq <;> cases heq
  rfl

/-- Without a failure all of the text is read, and what was noted stays noted. -/
theorem reads_scan (s : Scanner) (h : s.scan.failure = none) :
    s.faults ⊆ s.scan.final.faults ∧
      Reads s.scan.final.faults s.pos s.rest s.scan.tokens := by
  induction s using scan.induct with
  | case1 s hrest =>
    rw [scan_nil hrest, hrest]
    exact ⟨List.Subset.refl _, .done⟩
  | case2 s hrest e s' hs =>
    rw [scan_error hrest hs] at h
    cases h
  | case3 s hrest t s' hs hlt ih =>
    rw [scan_ok hrest hs] at h ⊢
    obtain ⟨hsub, hreads⟩ := ih h
    obtain ⟨c, r, l, hcons, hread, rfl, rfl⟩ := consume_ok hrest hs
    obtain ⟨hold, hnew⟩ := List.append_subset.1 hsub
    rw [hcons]
    refine ⟨hold, .token hread (fun e he => ?_) hreads⟩
    exact hnew (by simp [he])

end Scanner

/-- The tokens of a source are read off it one after the other. -/
theorem reads_scanSource {source : String} (h : (scanSource source).failure = none) :
    Scanner.Reads (scanSource source).final.faults .start source.toList
      (scanSource source).tokens :=
  (Scanner.reads_scan (.ofSource source.toList) h).2

namespace Scanner.Reads

variable {noted : List Fault} {pos : Position} {cs : List Char} {ts : List Token}

/-- The texts of all tokens, joined, are the text. -/
theorem rawText_eq (h : Reads noted pos cs ts) : (rawText ts).toList = cs := by
  induction h with
  | done => rfl
  | @token pos c cs l ts hread _ _ ih =>
    rw [rawText, List.map_cons, String.join_cons, String.toList_append, String.toList_ofList]
    exact (congrArg (l.raw ++ ·) ih).trans (Lexeme.raw_append_rest hread)

/-- Every token comes from a lexeme that is read before the texts of the tokens behind it, and whose
fault is noted where the token stands. -/
theorem exists_read {t : Token} {before behind : List Token}
    (h : Reads noted pos cs (before ++ t :: behind)) :
    ∃ c r l, Lexeme.read c r = .ok l ∧ t.kind = l.kind ∧ t.raw.toList = l.raw ∧
      (rawText behind).toList = l.rest ∧ ∀ e, l.fault = some e → ⟨e, t.pos⟩ ∈ noted := by
  induction before generalizing pos cs with
  | nil =>
    cases h with
    | token hread hnoted hrest =>
      exact ⟨_, _, _, hread, rfl, String.toList_ofList, hrest.rawText_eq, hnoted⟩
  | cons _ before ih =>
    cases h with
    | token _ _ hrest => exact ih hrest

/-- Every token comes from a lexeme, whose fault is noted. -/
theorem exists_lexeme (h : Reads noted pos cs ts) {t : Token} (ht : t ∈ ts) :
    ∃ c r l, Lexeme.read c r = .ok l ∧ t.kind = l.kind ∧ t.raw.toList = l.raw ∧
      ∀ e, l.fault = some e → ∃ p, (⟨e, p⟩ : Fault) ∈ noted := by
  obtain ⟨before, behind, rfl⟩ := List.append_of_mem ht
  obtain ⟨c, r, l, hread, hkind, hraw, -, hnoted⟩ := h.exists_read
  exact ⟨c, r, l, hread, hkind, hraw, fun e he => ⟨t.pos, hnoted e he⟩⟩

/-- Every token has the marks of its class. -/
theorem marks (h : Reads noted pos cs ts) {t : Token} (ht : t ∈ ts) :
    t.kind.Marks t.raw.toList := by
  obtain ⟨c, r, l, hread, hkind, hraw, -⟩ := h.exists_lexeme ht
  rw [hkind, hraw]
  exact Lexeme.marks_of_read hread

/-- No token is empty. -/
theorem raw_ne_nil (h : Reads noted pos cs ts) {t : Token} (ht : t ∈ ts) :
    t.raw.toList ≠ [] := by
  obtain ⟨c, r, l, hread, -, hraw, -⟩ := h.exists_lexeme ht
  rw [hraw]
  exact Lexeme.raw_ne_nil hread

/-- Where all addresses have ends, line feeds at the ends of tokens are escaped. -/
theorem feedEscaped (h : Reads noted pos cs ts) (hurl : ∀ f ∈ noted, f.cause ≠ .unclosedUrl)
    {t : Token} (ht : t ∈ ts) (hkind : t.kind ≠ .spacing) : FeedEscaped t.raw.toList := by
  obtain ⟨c, r, l, hread, hk, hraw, hnoted⟩ := h.exists_lexeme ht
  rw [hraw]
  refine Lexeme.feedEscaped_of_read hread (hk ▸ hkind) fun he => ?_
  obtain ⟨p, hp⟩ := hnoted _ he
  exact hurl _ hp rfl

end Scanner.Reads

end PixelUnit.Sheet
