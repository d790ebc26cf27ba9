import PixelUnit.Proofs.Sheet.Comments
import PixelUnit.Proofs.Sheet.Stages

/-!
# A closing brace behind a text

A closing brace behind a text is a token of its own, unless the last token takes it (`Takes`): a
string or an address without an end, or a backslash at the end of a word, which may make an
at-keyword of it. All tokens before are what they were (`Splits.brace`, `readsBrace_or_takes`).

A brace that is taken leaves a sheet at the stage where it was (`Outline.Standing.pass_of_takes`).
-/

namespace PixelUnit.Sheet

/-! ## Texts cut into lexemes -/

/-- A text is cut into lexemes, whatever is wrong with them. -/
inductive Splits : List Char → List Lexeme → Prop
  | nil : Splits [] []
  | cons {c : Char} {cs : List Char} {l : Lexeme} {ls : List Lexeme}
      (hread : Lexeme.read c cs = .ok l) (hrest : Splits l.rest ls) : Splits (c :: cs) (l :: ls)

namespace Splits

variable {cs : List Char} {ls : List Lexeme}

theorem ne_nil {l : Lexeme} (h : Splits cs (l :: ls)) : cs ≠ [] := by
  cases h
  exact List.cons_ne_nil _ _

theorem of_nil (h : Splits [] ls) : ls = [] := by
  cases h
  rfl

/-- There is one way to cut a text. -/
theorem unique {us : List Lexeme} (h : Splits cs ls) (h' : Splits cs us) : ls = us := by
  induction h generalizing us with
  | nil => exact h'.of_nil.symm
  | cons hread _ ih =>
    cases h' with
    | cons hread' hrest' =>
      obtain rfl := Except.ok.inj (hread.symm.trans hread')
      rw [ih hrest']

/-- Scanning gives the lexemes as tokens and notes what is wrong with them. -/
theorem scan (h : Splits cs ls) (s : Scanner) (hs : s.rest = cs) :
    s.scan.failure = none ∧ s.scan.tokens.map Token.kind = ls.map Lexeme.kind ∧
      s.scan.final.faults.map Fault.cause =
        s.faults.map Fault.cause ++ ls.filterMap Lexeme.fault := by
  induction h generalizing s with
  | nil =>
    rw [Scanner.scan_nil hs]
    exact ⟨rfl, rfl, by simp⟩
  | @cons c cs l ls hread hrest ih =>
    obtain ⟨hfailure, hkinds, hfaults⟩ := ih (s.past l) rfl
    rw [Scanner.scan_ok (by simp [hs]) (Scanner.consume_of_read hs hread)]
    refine ⟨hfailure, congrArg (l.kind :: ·) hkinds, hfaults.trans ?_⟩
    cases hfault : l.fault <;> simp [Scanner.past, hfault]

end Splits

/-- A text that is scanned without a failure is cut into lexemes. -/
theorem Scanner.exists_splits (s : Scanner) (h : s.scan.failure = none) :
    ∃ ls, Splits s.rest ls := by
  induction s using scan.induct with
  | case1 s hrest => exact ⟨[], hrest ▸ .nil⟩
  | case2 s hrest e s' hs =>
    rw [scan_error hrest hs] at h
    cases h
  | case3 s hrest t s' hs hlt ih =>
    rw [scan_ok hrest hs] at h
    obtain ⟨c, r, l, hcons, hread, -, rfl⟩ := consume_ok hrest hs
    obtain ⟨ls, hls⟩ := ih h
    exact ⟨l :: ls, hcons ▸ .cons hread hls⟩

/-! ## Lexemes with a character more behind the text -/

section Concat

variable {r : List Char} {x : Char}

/-- Whether an address is opened is seen before the end of a text, unless a quote is put there. -/
theorem opensUrl_concat (hr : r ≠ []) (hx : isQuote x = false) :
    opensUrl (r ++ [x]) = opensUrl r := by
  obtain ⟨d, r, rfl⟩ := List.exists_cons_of_ne_nil hr
  by_cases hd : d = '('
  · subst hd
    have hsame : ((r ++ [x]).dropWhile isSpacing).head?.any isQuote =
        (r.dropWhile isSpacing).head?.any isQuote := by
      induction r with
      | nil => by_cases hspacing : isSpacing x = true <;> simp [hspacing, hx]
      | cons e r ih =>
        by_cases hspacing : isSpacing e = true
        · simpa [List.dropWhile_cons, hspacing] using ih (List.cons_ne_nil _ _)
        · simp [hspacing]
    exact congrArg Bool.not hsame
  · have hhead : ∀ s, ∀ e ∈ (d :: s).head?, e ≠ '(' := by
      intro s e he
      exact Option.some.inj he ▸ hd
    rw [opensUrl_of_head (hhead r)]
    exact opensUrl_of_head (hhead (r ++ [x]))

/-- Whether a word ends before a text is seen from its front, unless a comment opens at its end. -/
theorem endsWord_concat (hr : r ≠ []) (hx : x ≠ '*') : endsWord (r ++ [x]) = endsWord r := by
  match r, hr with
  | [d], _ => simp [endsWord, startsComment, hx]
  | d :: e :: r, _ => rfl

/-- Whether an identifier ends before a text is seen from its front, unless that is a backslash
which escapes its last character. -/
theorem endsIdent_concat (hr : r ≠ []) (hx : r = ['\\'] → x = '\n') :
    endsIdent (r ++ [x]) = endsIdent r := by
  match r, hr with
  | [d], _ =>
    by_cases hd : d = '\\'
    · subst hd
      simp [endsIdent, isEscape, hx rfl]
    · simp [endsIdent, isEscape, hd]
  | d :: e :: r, _ => rfl

/-- A lexeme ends alike before two texts that look the same. -/
theorem Lexeme.Ahead.of_eq {kind : Token.Kind} {name r' : List Char} (h : Ahead kind name r r)
    (hhead : r'.head? = r.head?) (hword : endsWord r' = endsWord r)
    (hopens : opensUrl r' = opensUrl r) (hident : kind = .atKeyword → endsIdent r' = endsIdent r) :
    Ahead kind name r r' where
  spacing hk := hhead ▸ h.spacing hk
  word hk := ⟨hword.trans (h.word hk).1, fun _ hr => hopens.trans hr⟩
  atKeyword hk := (hident hk).trans (h.atKeyword hk)

/-- A lexeme that ends before the end of a text is the same with a character more there, if this is
no quote and no star, and makes no escape of a backslash behind an identifier. -/
theorem Lexeme.read_concat_iff {kind : Token.Kind} {c : Char} {t : List Char}
    {e : Option Fault.Cause} (hr : r ≠ []) (hquote : isQuote x = false) (hstar : x ≠ '*')
    (hescape : kind = .atKeyword → r = ['\\'] → x = '\n') :
    read c (t ++ (r ++ [x])) = .ok ⟨kind, c :: t, r ++ [x], e⟩ ↔
      read c (t ++ r) = .ok ⟨kind, c :: t, r, e⟩ := by
  have hhead : (r ++ [x]).head? = r.head? := List.head?_append_of_ne_nil r hr
  have hword := endsWord_concat hr hstar
  have hopens := opensUrl_concat hr hquote
  have hident := fun hk => endsIdent_concat hr (hescape hk)
  constructor
  · intro h
    have hahead := (ahead_of_read h).of_eq hhead.symm hword.symm hopens.symm
      fun hk => (hident hk).symm
    exact read_exchange (by simp) hhead.symm hahead h
  · intro h
    exact read_exchange hr hhead ((ahead_of_read h).of_eq hhead hword hopens hident) h

end Concat

/-! ## The last lexeme -/

/-- A lexeme has no end. -/
def Lexeme.Unclosed (l : Lexeme) : Prop :=
  l.fault = some .unclosedString ∨ l.fault = some .unclosedUrl

/-- The last token takes a brace that is put behind it. -/
inductive Takes : List Token.Kind → List Token.Kind → Prop
  | last {k : Token.Kind} (hk : k = .word ∨ k = .badString ∨ k = .url) : Takes [k] [k]
  /-- An escape makes an identifier of what stands behind an at sign. -/
  | keyword : Takes [.word] [.atKeyword]
  /-- An escape goes on with the identifier before it. -/
  | join : Takes [.atKeyword, .word] [.atKeyword]
  | cons (k : Token.Kind) {ks us : List Token.Kind} (h : Takes ks us) : Takes (k :: ks) (k :: us)

section Brace

variable {quote : Char} {cs t u r : List Char} {e : Fault.Cause}

/-- What is split off in front of the end of a text leaves its last character. -/
theorem exists_concat_of_append {x : Char} (h : t ++ u = cs ++ [x]) (hu : u ≠ []) :
    ∃ v, u = v ++ [x] ∧ cs = t ++ v := by
  obtain ⟨v, y, rfl⟩ := (List.eq_nil_or_concat' u).resolve_left hu
  rw [← List.append_assoc] at h
  obtain ⟨hfront, hlast⟩ := List.append_inj' h rfl
  exact ⟨v, by rw [hlast], hfront.symm⟩

/-- A string without an end has none behind a brace either. -/
theorem splitString_brace (hquote : isQuote quote = true)
    (h : splitString quote cs = (t, [], some e)) :
    ∃ t', splitString quote (cs ++ ['\x7d']) = (t', [], some .unclosedString) := by
  have happ := splitString_append quote (cs ++ ['\x7d'])
  rcases hs : splitString quote (cs ++ ['\x7d']) with ⟨t', u', e'⟩
  rw [hs] at happ
  dsimp only at happ
  cases e' with
  | none =>
    -- a string that ends ends before the brace, and did so without it
    obtain ⟨body, rfl⟩ := splitString_closed hs
    have hu' : u' ≠ [] := by
      rintro rfl
      rw [List.append_nil] at happ
      obtain ⟨-, hlast⟩ := List.append_inj' happ rfl
      obtain rfl := List.singleton_inj.1 hlast
      cases hquote
    obtain ⟨v, rfl, rfl⟩ := exists_concat_of_append happ hu'
    have hslash : quote ≠ '\\' := by
      rintro rfl
      cases hquote
    rw [splitString_congr hslash hs v] at h
    cases h
  | some e' =>
    rcases splitString_broken hs with ⟨rfl, rfl⟩ | ⟨rfl, v, rfl, hv⟩
    · exact ⟨t', rfl⟩
    · obtain ⟨w, hw, rfl⟩ := exists_concat_of_append happ (List.cons_ne_nil _ _)
      cases w with
      | nil => cases hw
      | cons d w =>
        obtain ⟨rfl, rfl⟩ := List.cons.inj hw
        rw [hv w] at h
        cases h

/-- An address without an end has none behind a brace either. -/
theorem splitUrl_brace (h : splitUrl cs = (t, u, some e)) :
    ∃ t', splitUrl (cs ++ ['\x7d']) = (t', [], some .unclosedUrl) := by
  have happ := splitUrl_append (cs ++ ['\x7d'])
  rcases hs : splitUrl (cs ++ ['\x7d']) with ⟨t', u', e'⟩
  rw [hs] at happ
  dsimp only at happ
  cases e' with
  | none =>
    obtain ⟨body, rfl⟩ := splitUrl_closed hs
    have hu' : u' ≠ [] := by
      rintro rfl
      rw [List.append_nil] at happ
      obtain ⟨-, hlast⟩ := List.append_inj' happ rfl
      cases List.singleton_inj.1 hlast
    obtain ⟨v, rfl, rfl⟩ := exists_concat_of_append happ hu'
    rw [splitUrl_congr hs v] at h
    cases h
  | some e' =>
    obtain rfl := splitUrl_unclosed hs
    obtain rfl := Option.some.inj ((splitUrl_fault hs).resolve_left (Option.some_ne_none e'))
    exact ⟨t', rfl⟩

/-- A word at the end of a text ends before a brace, unless a backslash takes it. -/
theorem splitWord_brace (h : splitWord cs = (cs, [])) :
    splitWord (cs ++ ['\x7d']) = (cs, ['\x7d']) ∨
      cs.getLast? = some '\\' ∧ splitWord (cs ++ ['\x7d']) = (cs ++ ['\x7d'], []) := by
  fun_induction splitWord cs with
  | case1 => exact Or.inl rfl
  | case2 c r t u hs ih =>
    have hr : splitWord r = (r, []) := by simpa [hs] using h
    rw [List.cons_append, List.cons_append, splitWord_escape]
    refine (ih hr).imp (fun hword => by rw [hword]) ?_
    rintro ⟨hlast, hword⟩
    exact ⟨by simp [List.getLast?_cons, hlast], by rw [hword]⟩
  | case3 c r _ hstop => simp at h
  | case4 c r hslash hstop t u hs ih =>
    have hr : splitWord r = (r, []) := by simpa [hs] using h
    by_cases hc : c = '\\'
    · -- a backslash with nothing behind it
      subst hc
      obtain rfl : r = [] := by
        cases r with
        | nil => rfl
        | cons d r => exact absurd rfl (hslash d r rfl)
      exact Or.inr ⟨rfl, rfl⟩
    · have hstop' :
          ¬(isSeparator (some c) || startsComment (some c) (r ++ ['\x7d']).head?) = true := by
        cases r with
        | nil =>
          rw [Bool.or_eq_true, not_or] at hstop ⊢
          exact ⟨hstop.1, by simp [startsComment]⟩
        | cons d r => exact hstop
      rw [List.cons_append, splitWord_cons hc, if_neg hstop']
      refine (ih hr).imp (fun hword => by rw [hword]) ?_
      rintro ⟨hlast, hword⟩
      exact ⟨by simp [List.getLast?_cons, hlast], by rw [hword]⟩

/-- What starts a word at the end of a text starts one before a brace, but for an at sign with a
backslash. -/
theorem StartsWord.brace {c : Char} (h : StartsWord c cs) (hat : ¬(c = '@' ∧ cs = ['\\'])) :
    StartsWord c (cs ++ ['\x7d']) := by
  match cs with
  | [] =>
    exact ⟨by simp [startsComment], h.noSpacing, h.noQuote, h.noPunctuation,
      fun _ => by decide +kernel⟩
  | [d] =>
    refine ⟨h.noComment, h.noSpacing, h.noQuote, h.noPunctuation, fun hc => ?_⟩
    have hslash : d ≠ '\\' := fun hd => hat ⟨hc, by rw [hd]⟩
    have hstart := h.noKeyword hc
    have hbrace : isIdentStart '\x7d' = false := by decide +kernel
    simp only [startsIdent, isEscape] at hstart ⊢
    simpa [hslash, hbrace] using hstart
  | d :: f :: r => exact ⟨h.noComment, h.noSpacing, h.noQuote, h.noPunctuation, h.noKeyword⟩

end Brace

namespace Lexeme

variable {c : Char} {cs : List Char} {l : Lexeme}

/-- A lexeme without an end takes all of the text. -/
theorem rest_of_unclosed (h : read c cs = .ok l) (hl : l.Unclosed) : l.rest = [] := by
  rcases hl with hl | hl
  · cases form_of_read h with
    | comment | spacing | string | punctuation | atKeyword | word => cases hl
    | badString hc hs =>
      obtain rfl := Option.some.inj hl
      rcases splitString_broken hs with ⟨-, hnil⟩ | ⟨he, -⟩
      · exact hnil
      · cases he
    | url hc hs hname hu =>
      obtain rfl := hl
      exact splitUrl_unclosed hu
  · exact (last_of_unclosedUrl h hl).2

/-- A lexeme at the end of a text stays what it is before a brace, or takes it. -/
inductive MeetsBrace (c : Char) (cs : List Char) (l : Lexeme) : Prop
  | stands {l' : Lexeme} (hclosed : ¬l.Unclosed) (hread : read c (cs ++ ['\x7d']) = .ok l')
      (hkind : l'.kind = l.kind) (hrest : l'.rest = ['\x7d']) : MeetsBrace c cs l
  | takes {l' : Lexeme} (hopen : l.Unclosed ∨ cs.getLast? = some '\\')
      (hread : read c (cs ++ ['\x7d']) = .ok l') (hrest : l'.rest = [])
      (hkind : Takes [l.kind] [l'.kind]) : MeetsBrace c cs l

theorem not_unclosed {k : Token.Kind} {raw rest : List Char} :
    ¬Unclosed ⟨k, raw, rest, none⟩ := by
  simp [Unclosed]

/-- A string without an end takes a brace that is put behind it. -/
theorem meetsBrace_badString {t : List Char} {e : Fault.Cause} (hc : isQuote c = true)
    (hs : splitString c cs = (t, [], some e)) :
    MeetsBrace c cs ⟨.badString, c :: t, [], some e⟩ := by
  obtain ⟨t', hs'⟩ := splitString_brace hc hs
  refine .takes (Or.inl (Or.inl ?_)) (read_of_form (.badString hc hs')) rfl
    (.last (Or.inr (Or.inl rfl)))
  rcases splitString_broken hs with ⟨rfl, -⟩ | ⟨-, v, hv, -⟩
  · rfl
  · cases hv

/-- An address without an end takes a brace that is put behind it. -/
theorem meetsBrace_url {t r v : List Char} {e : Option Fault.Cause}
    (hc : StartsWord c (t ++ '(' :: r)) (hs : splitWord (t ++ '(' :: r) = (t, '(' :: r))
    (hname : isUrlName (c :: t) = true) (hu : splitUrl r = (v, [], e))
    (hopen : opensUrl ('(' :: r) = true) :
    MeetsBrace c (t ++ '(' :: r) ⟨.url, c :: t ++ '(' :: v, [], e⟩ := by
  have happ : t ++ '(' :: r ++ ['\x7d'] = t ++ '(' :: (r ++ ['\x7d']) := by
    rw [List.append_assoc, List.cons_append]
  have hstarts : StartsWord c (t ++ '(' :: r ++ ['\x7d']) := by
    rw [happ]
    exact startsWord_congr hc hs (List.cons_ne_nil _ _) rfl
  have hword : splitWord (t ++ '(' :: r ++ ['\x7d']) = (t, '(' :: (r ++ ['\x7d'])) := by
    rw [happ]
    exact splitWord_congr hs (List.cons_ne_nil _ _) rfl
  have hopen' : opensUrl ('(' :: (r ++ ['\x7d'])) = true :=
    (opensUrl_concat (List.cons_ne_nil _ _) rfl).trans hopen
  cases e with
  | none =>
    have hr := splitUrl_append r
    rw [hu, List.append_nil] at hr
    obtain rfl : v = r := hr
    exact .stands not_unclosed
      (read_of_form (.url hstarts hword hname (splitUrl_congr hu _) hopen')) rfl rfl
  | some e =>
    obtain ⟨v', hu'⟩ := splitUrl_brace hu
    have hunclosed := (splitUrl_fault hu).resolve_left (Option.some_ne_none e)
    exact .takes (Or.inl (Or.inr hunclosed))
      (read_of_form (.url hstarts hword hname hu' hopen')) rfl (.last (Or.inr (Or.inr rfl)))

/-- A word at the end of a text ends before a brace, unless a lone backslash takes the brace. -/
theorem meetsBrace_word (hc : StartsWord c cs) (hs : splitWord cs = (cs, [])) :
    MeetsBrace c cs ⟨.word, c :: cs, [], none⟩ := by
  by_cases hat : c = '@' ∧ cs = ['\\']
  · obtain ⟨rfl, rfl⟩ := hat
    have hident : splitIdent ['\\', '\x7d'] = (['\\', '\x7d'], []) :=
      splitIdent_escape (by decide) []
    have hstart : startsIdent (some '\\') (some '\x7d') = true := by decide +kernel
    have hread : read '@' (['\\'] ++ ['\x7d']) = .ok ⟨.atKeyword, ['@', '\\', '\x7d'], [], none⟩ :=
      read_of_form (.atKeyword rfl hident hstart)
    exact .takes (Or.inr rfl) hread rfl .keyword
  · rcases splitWord_brace hs with hs' | ⟨hlast, hs'⟩
    · exact .stands not_unclosed (read_of_form (.word (hc.brace hat) hs' (by simp [opensUrl])))
        rfl rfl
    · exact .takes (Or.inr hlast)
        (read_of_form (.word (hc.brace hat) hs' (by simp [opensUrl]))) rfl (.last (Or.inl rfl))

/-- An at-keyword at the end of a text ends before a brace. -/
theorem meetsBrace_atKeyword (hc : c = '@') (hs : splitIdent cs = (cs, []))
    (hstart : startsIdent cs.head? (cs.drop 1).head? = true) :
    MeetsBrace c cs ⟨.atKeyword, c :: cs, [], none⟩ := by
  have hends : endsIdent ['\x7d'] = true := by decide +kernel
  have hs' : splitIdent (cs ++ []) = (cs, []) := by rw [List.append_nil, hs]
  have hsame := startsIdent_congr (ne_backslash_of_splitIdent hs') (rfl : endsIdent [] = true) hends
  rw [List.append_nil] at hsame
  exact .stands not_unclosed
    (read_of_form (.atKeyword hc (splitIdent_congr hs' hends) (hsame.trans hstart))) rfl rfl

/-- The last lexeme of a text stands as it is before a brace, or takes the brace. -/
theorem meetsBrace_of_read (h : read c cs = .ok l) (hrest : l.rest = []) : MeetsBrace c cs l := by
  -- Comments, white space, punctuation and strings that are closed stand before a brace; what is
  -- open takes it.
  cases form_of_read h with
  | @comment r t u hc hcs hs =>
    obtain rfl := hrest
    have happ := append_of_splitComment hs
    rw [List.append_nil] at happ
    subst happ hcs
    exact .stands not_unclosed (read_of_form (.comment hc rfl (splitComment_congr hs _))) rfl rfl
  | spacing hc =>
    have hrun : ∀ d ∈ cs, isSpacing d = true := by
      simpa [List.dropWhile_eq_nil_iff] using hrest
    exact .stands not_unclosed (read_of_form (.spacing hc)) rfl
      (Text.dropWhile_run hrun (by simp [isSpacing]))
  | @string t u hc hs =>
    obtain rfl := hrest
    have happ := splitString_append c cs
    rw [hs, List.append_nil] at happ
    obtain rfl : t = cs := happ
    have hslash : c ≠ '\\' := by
      rintro rfl
      cases hc
    exact .stands not_unclosed (read_of_form (.string hc (splitString_congr hslash hs _))) rfl rfl
  | badString hc hs =>
    obtain rfl := hrest
    exact meetsBrace_badString hc hs
  | punctuation hc =>
    obtain rfl := hrest
    exact .stands not_unclosed (read_of_form (.punctuation hc)) rfl rfl
  | @atKeyword t u hc hs hstart =>
    obtain rfl := hrest
    have happ := splitIdent_append cs
    rw [hs, List.append_nil] at happ
    obtain rfl : t = cs := happ
    exact meetsBrace_atKeyword hc hs hstart
  | @url t r v w e hc hs hname hu hopen =>
    obtain rfl := hrest
    have happ := splitWord_append cs
    rw [hs] at happ
    subst happ
    exact meetsBrace_url hc hs hname hu hopen
  -- A word is the one form where it depends on the last character.
  | @word t u hc hs hurl =>
    obtain rfl := hrest
    have happ := splitWord_append cs
    rw [hs, List.append_nil] at happ
    obtain rfl : t = cs := happ
    exact meetsBrace_word hc hs

/-- An identifier that ends before a backslash at the end of a text goes on with a brace. -/
theorem read_escape (h : read c cs = .ok l) (hkind : l.kind = .atKeyword)
    (hrest : l.rest = ['\\']) :
    ∃ l', read c (cs ++ ['\x7d']) = .ok l' ∧ l'.rest = [] ∧ l'.kind = .atKeyword := by
  cases form_of_read h with
  | comment | spacing | string | badString | url | word => cases hkind
  | punctuation hc =>
    obtain rfl := hkind
    unfold punctuation? at hc
    split at hc <;> cases hc
  | @atKeyword t u hc hs hstart =>
    obtain rfl := hrest
    have happ := splitIdent_append cs
    rw [hs] at happ
    dsimp only at happ
    subst happ
    have hrun : splitIdent (t ++ ['\\', '\x7d']) = (t ++ ['\\', '\x7d'], []) := splitIdent_run hs _
    rw [List.append_assoc]
    refine ⟨_, read_of_form (.atKeyword hc hrun ?_), rfl, rfl⟩
    cases t with
    | nil => exact absurd hstart (by decide +kernel)
    | cons d t => cases t <;> simpa using hstart

theorem read_backslash : read '\\' [] = .ok ⟨.word, ['\\'], [], none⟩ := rfl

end Lexeme

/-! ## All lexemes -/

namespace Splits

variable {c : Char} {cs : List Char} {l : Lexeme} {ls us : List Lexeme}

/-- A backslash behind an identifier at the end of a text is a word, and the identifier takes it
with a brace. -/
theorem brace_join (hread : Lexeme.read c cs = .ok l) (hrest : Splits l.rest ls)
    (hkind : l.kind = .atKeyword) (hslash : l.rest = ['\\']) :
    ∃ l', Splits (c :: cs ++ ['\x7d']) [l'] ∧
      Takes ((l :: ls).map Lexeme.kind) ([l'].map Lexeme.kind) := by
  obtain ⟨l', hread', hrest', hkind'⟩ := Lexeme.read_escape hread hkind hslash
  have hls : ls.map Lexeme.kind = [.word] := by
    rw [hslash] at hrest
    cases hrest with
    | cons hword hbehind =>
      obtain rfl := Except.ok.inj (Lexeme.read_backslash.symm.trans hword)
      rw [hbehind.of_nil]
      rfl
  refine ⟨l', .cons hread' (hrest' ▸ .nil), ?_⟩
  rw [List.map_cons, hkind, hls, List.map_singleton, hkind']
  exact .join

/-- All other lexemes before the last are what they were. -/
theorem brace_cons (hread : Lexeme.read c cs = .ok l) (hnil : l.rest ≠ [])
    (hescape : ¬(l.kind = .atKeyword ∧ l.rest = ['\\']))
    (hus : Splits (l.rest ++ ['\x7d']) us) :
    ∃ l', Splits (c :: cs ++ ['\x7d']) (l' :: us) ∧ l'.kind = l.kind := by
  obtain ⟨t, hraw, rfl⟩ := Lexes.exists_read hread
  have hread' : Lexeme.read c (t ++ (l.rest ++ ['\x7d'])) =
      .ok ⟨l.kind, c :: t, l.rest ++ ['\x7d'], l.fault⟩ := by
    refine (Lexeme.read_concat_iff hnil rfl (by decide) fun hkind hslash => ?_).2 ?_
    · exact absurd ⟨hkind, hslash⟩ hescape
    · rw [hread, ← hraw]
  refine ⟨⟨l.kind, c :: t, l.rest ++ ['\x7d'], l.fault⟩, ?_, rfl⟩
  rw [List.cons_append, List.append_assoc]
  exact .cons hread' hus

/-- A brace behind a text is a lexeme of its own, or the last one takes it, which has no end or ends
in a backslash. -/
theorem brace (h : Splits cs ls) : ∃ us, Splits (cs ++ ['\x7d']) us ∧
    ((∀ l ∈ ls, ¬l.Unclosed) ∧ us.map Lexeme.kind = ls.map Lexeme.kind ++ [.closeBrace] ∨
      ((∃ l ∈ ls, l.Unclosed) ∨ cs.getLast? = some '\\') ∧
        Takes (ls.map Lexeme.kind) (us.map Lexeme.kind)) := by
  have hbrace : Splits ['\x7d'] [⟨.closeBrace, ['\x7d'], [], none⟩] :=
    .cons (Lexeme.read_of_form (.punctuation rfl)) .nil
  induction h with
  | nil => exact ⟨_, hbrace, Or.inl ⟨List.forall_mem_nil _, rfl⟩⟩
  | @cons c cs l ls hread hrest ih =>
    -- Only the last lexeme can meet the brace, save for a backslash alone, which hands it back to a
    -- keyword.
    by_cases hnil : l.rest = []
    · obtain rfl : ls = [] := by
        rw [hnil] at hrest
        exact hrest.of_nil
      cases Lexeme.meetsBrace_of_read hread hnil with
      | stands hclosed hread' hkind hrest' =>
        exact ⟨_, .cons hread' (hrest' ▸ hbrace), Or.inl ⟨by simpa using hclosed, by simp [hkind]⟩⟩
      | @takes l' hopen hread' hrest' htakes =>
        refine ⟨[l'], .cons hread' (hrest' ▸ .nil), Or.inr ⟨?_, htakes⟩⟩
        refine hopen.imp (fun hl => ⟨l, List.mem_singleton_self l, hl⟩) fun hlast => ?_
        rw [List.getLast?_cons, hlast, Option.getD_some]
    · have hlast : (c :: cs).getLast? = l.rest.getLast? := by
        rw [← Lexeme.raw_append_rest hread, List.getLast?_append_of_ne_nil _ hnil]
      by_cases hescape : l.kind = .atKeyword ∧ l.rest = ['\\']
      · obtain ⟨l', hl', htakes⟩ := brace_join hread hrest hescape.1 hescape.2
        exact ⟨[l'], hl', Or.inr ⟨Or.inr (by rw [hlast, hescape.2]; rfl), htakes⟩⟩
      · obtain ⟨us, hus, hkinds⟩ := ih
        obtain ⟨l', hl', hkind⟩ := brace_cons hread hnil hescape hus
        have hclosed : ¬l.Unclosed := fun hl => hnil (Lexeme.rest_of_unclosed hread hl)
        refine ⟨l' :: us, hl', ?_⟩
        rw [List.map_cons, hkind]
        refine hkinds.imp ?_ ?_
        · rintro ⟨hall, heq⟩
          exact ⟨List.forall_mem_cons.2 ⟨hclosed, hall⟩, congrArg (l.kind :: ·) heq⟩
        · rintro ⟨hopen, htakes⟩
          refine ⟨hopen.imp ?_ hlast.trans, htakes.cons l.kind⟩
          rintro ⟨u, hu, hopen⟩
          exact ⟨u, List.mem_cons_of_mem _ hu, hopen⟩

end Splits

/-- Nothing is wrong with a lexeme that ends before a brace. -/
theorem Lexeme.fault_eq_none {c : Char} {cs : List Char} {l : Lexeme} (h : read c cs = .ok l)
    (hrest : l.rest = ['\x7d']) : l.fault = none := by
  cases form_of_read h with
  | comment | spacing | string | punctuation | atKeyword | word => rfl
  | badString hc hs =>
    obtain rfl := hrest
    rcases splitString_broken hs with ⟨-, hnil⟩ | ⟨-, v, hv, -⟩
    · cases hnil
    · cases hv
  | @url t r v w e hc hs hname hu =>
    obtain rfl := hrest
    cases e with
    | none => rfl
    | some e => cases splitUrl_unclosed hu

/-- A closing brace that is a lexeme of its own leaves all tokens what they are. -/
theorem Lexes.append_brace {cs : List Char} {ts : List Token} (h : Lexes cs ts) :
    ∀ {us : List Lexeme}, Splits (cs ++ ['\x7d']) us →
    us.map Lexeme.kind = ts.map Token.kind ++ [.closeBrace] →
    Lexes (cs ++ ['\x7d']) (ts ++ [.of .closeBrace ['\x7d']]) := by
  have hbrace : Lexes ['\x7d'] [.of .closeBrace ['\x7d']] := .cons (t := []) rfl .nil
  induction h with
  | nil => exact fun _ _ => hbrace
  | @cons kind c t r ts hread hrest ih =>
    intro us hus hkinds
    -- the brace is not taken by the first token
    have hnot : ∀ l', Lexeme.read c (t ++ r ++ ['\x7d']) = .ok l' → l'.rest ≠ [] := by
      intro l' hread' hrest'
      have hone : Splits (c :: (t ++ r) ++ ['\x7d']) [l'] :=
        .cons hread' (by rw [hrest']; exact .nil)
      rw [hus.unique hone] at hkinds
      have hlen := congrArg List.length hkinds
      simp at hlen
    by_cases hnil : r = []
    · subst hnil
      obtain rfl : ts = [] := by
        cases ts with
        | nil => rfl
        | cons u ts => exact absurd rfl hrest.ne_nil
      cases Lexeme.meetsBrace_of_read hread rfl with
      | @stands l' _ hread' hkind hrest' =>
        obtain ⟨t', hraw, happ⟩ := exists_read hread'
        have hfault := Lexeme.fault_eq_none hread' hrest'
        obtain ⟨kind', raw', rest', fault'⟩ := l'
        subst hkind hraw hrest' hfault
        rw [List.append_nil] at happ
        obtain rfl := List.append_cancel_right happ
        rw [List.append_nil] at hread'
        rw [List.append_nil]
        exact .cons hread' hbrace
      | takes _ hread' hrest' => exact absurd hrest' (hnot _ hread')
    · by_cases hescape : kind = .atKeyword ∧ r = ['\\']
      · obtain ⟨l', hread', hrest', -⟩ := Lexeme.read_escape hread hescape.1 hescape.2
        exact absurd hrest' (hnot _ hread')
      · have hread' := (Lexeme.read_concat_iff hnil rfl (x := '\x7d') (by decide)
          fun hkind hslash =>
          absurd ⟨hkind, hslash⟩ hescape).2 hread
        have happ : c :: (t ++ r) ++ ['\x7d'] = c :: (t ++ (r ++ ['\x7d'])) := by simp
        rw [happ] at hus ⊢
        cases hus with
        | @cons _ _ l us hread'' hrest' =>
          obtain rfl := Except.ok.inj (hread'.symm.trans hread'')
          exact .cons hread' (ih hrest' (List.cons.inj hkinds).2)
/-! ## Classes of tokens -/

namespace Takes

variable {ks us : List Token.Kind}

theorem length_le (h : Takes ks us) : us.length ≤ ks.length := by
  induction h with
  | last | keyword => exact Nat.le_refl _
  | join => exact Nat.le_succ _
  | cons k _ ih => exact Nat.succ_le_succ ih

theorem ne_nil (h : Takes ks us) : ks ≠ [] := by
  cases h <;> exact List.cons_ne_nil _ _

/-- A closing brace takes no other. -/
theorem getLast?_ne (h : Takes ks us) : ks.getLast? ≠ some .closeBrace := by
  induction h with
  | last hk => rcases hk with rfl | rfl | rfl <;> decide
  | keyword | join => decide
  | cons k h ih =>
    obtain ⟨u, vs, hcons⟩ := List.exists_cons_of_ne_nil h.ne_nil
    rwa [hcons, List.getLast?_cons_cons, ← hcons]

end Takes

namespace Outline.Standing

theorem pass_singleton (s : Standing) (k : Token.Kind) : s.pass [k] = s.step k := by
  rw [pass_cons]
  cases s.step k <;> rfl

/-- Words and at-keywords are alike in a statement. -/
theorem step_inside {opened : Nat} {form : Form} {awaited : List Token.Kind}
    (h : Prelude.Awaits awaited) {k : Token.Kind} (hk : k = .word ∨ k = .atKeyword) :
    step ⟨opened, .inside form awaited⟩ k = .ok ⟨opened, .inside (form.next .word) awaited⟩ := by
  have hstops : ¬(awaited = [] ∧ k.stops = true) := by
    rcases hk with rfl | rfl <;> exact fun h => absurd h.2 (by decide)
  have hnest : nest awaited k = awaited := by
    rcases hk with rfl | rfl <;> exact nest_of_ne h (by decide)
  have hform : form.next k = form.next .word := by
    rcases hk with rfl | rfl <;> cases form <;> rfl
  rw [step, goOn, if_neg hstops, hnest, hform]

/-- A brace that the last token takes makes no difference. -/
theorem pass_of_takes {ks us : List Token.Kind} (h : Takes ks us) {s s' : Standing} (hs : s.Sound)
    (hpass : s.pass ks = .ok s') {n : Nat} (hfinish : s'.finish = .accepted n) :
    s.pass us = .ok s' := by
  induction h generalizing s with
  | last => exact hpass
  | keyword =>
    rw [pass_singleton] at hpass ⊢
    obtain ⟨opened, stage⟩ := s
    cases stage with
    | between =>
      -- a word that starts a statement does not make one
      obtain rfl : ⟨opened, .inside .plain []⟩ = s' := Except.ok.inj hpass
      cases hfinish
    | inside form awaited =>
      rw [step_inside (hs form awaited rfl) (Or.inl rfl)] at hpass
      rw [step_inside (hs form awaited rfl) (Or.inr rfl), hpass]
  | join =>
    obtain ⟨opened, stage⟩ := s
    cases stage with
    | between => exact hpass
    | inside form awaited =>
      have hawaits := hs form awaited rfl
      have htwice : (form.next .word).next .word = form.next .word := by
        cases form <;> rfl
      rw [pass_cons, step_inside hawaits (Or.inr rfl)] at hpass
      rw [pass_singleton, step_inside hawaits (Or.inr rfl), ← hpass]
      show _ = pass _ [Token.Kind.word]
      rw [pass_singleton, step_inside hawaits (Or.inl rfl), htwice]
  | cons k h ih =>
    rw [pass_cons] at hpass ⊢
    cases hk : s.step k with
    | error e =>
      rw [hk] at hpass
      cases hpass
    | ok s₁ =>
      rw [hk] at hpass
      exact ih (hs.step hk) hpass

end Outline.Standing

/-! ## Sources -/

/-- A closing brace behind a source is a token of its own. -/
def ReadsBrace (source : String) : Prop :=
  (scanSource (source ++ "\x7d")).tokens.map Token.kind =
    (scanSource source).tokens.map Token.kind ++ [.closeBrace]

instance (source : String) : Decidable (ReadsBrace source) :=
  inferInstanceAs (Decidable (_ = _))

/-- A string or an address has no end. -/
def OpenEnded (source : String) : Prop :=
  ∃ f ∈ (scanSource source).final.faults, f.cause = .unclosedString ∨ f.cause = .unclosedUrl

section Source

variable {source : String} {ls : List Lexeme}

theorem exists_splits (h : (scanSource source).failure = none) :
    ∃ ls, Splits source.toList ls :=
  Scanner.exists_splits (.ofSource source.toList) h

theorem Splits.map_kind (h : Splits source.toList ls) :
    (scanSource source).tokens.map Token.kind = ls.map Lexeme.kind :=
  (h.scan (.ofSource source.toList) rfl).2.1

/-- What is noted of a source is what is wrong with its lexemes. -/
theorem Splits.exists_fault_iff (h : Splits source.toList ls) (e : Fault.Cause) :
    (∃ f ∈ (scanSource source).final.faults, f.cause = e) ↔ ∃ l ∈ ls, l.fault = some e := by
  have hfaults : (scanSource source).final.faults.map Fault.cause = ls.filterMap Lexeme.fault :=
    (h.scan (.ofSource source.toList) rfl).2.2
  rw [← List.mem_map, hfaults, List.mem_filterMap]

theorem Splits.openEnded_iff (h : Splits source.toList ls) :
    OpenEnded source ↔ ∃ l ∈ ls, l.Unclosed := by
  simp only [OpenEnded, Lexeme.Unclosed, and_or_left, exists_or, h.exists_fault_iff]

/-- A brace behind a source is a token of its own, or its last token takes it. -/
theorem readsBrace_or_takes (h : Splits source.toList ls) :
    ∃ us, Splits (source ++ "\x7d").toList us ∧
      (ReadsBrace source ∧ ¬OpenEnded source ∧
          us.map Lexeme.kind = ls.map Lexeme.kind ++ [.closeBrace] ∨
        ¬ReadsBrace source ∧ (OpenEnded source ∨ source.toList.getLast? = some '\\') ∧
          Takes (ls.map Lexeme.kind) (us.map Lexeme.kind)) := by
  obtain ⟨us, hus, hkinds⟩ := h.brace
  have hus : Splits (source ++ "\x7d").toList us := by rwa [String.toList_append]
  refine ⟨us, hus, ?_⟩
  rw [h.openEnded_iff, ReadsBrace, hus.map_kind, h.map_kind]
  refine hkinds.imp (fun ⟨hclosed, heq⟩ => ⟨heq, by simpa using hclosed, heq⟩)
    fun ⟨hopen, htakes⟩ => ⟨fun heq => ?_, hopen, htakes⟩
  have hlen := htakes.length_le
  rw [heq, List.length_append] at hlen
  exact absurd hlen (by simp)

/-- A brace that is read behind a source leaves all tokens what they are. -/
theorem ReadsBrace.lexes {ts : List Token} (h : ReadsBrace source)
    (hlex : Lexes source.toList ts) :
    Lexes (source.toList ++ ['\x7d']) (ts ++ [.of .closeBrace ['\x7d']]) := by
  obtain ⟨hfailure, -, hbare⟩ := hlex.scanSource
  obtain ⟨ls, hls⟩ := exists_splits hfailure
  obtain ⟨us, hus, ⟨-, -, hkinds⟩ | ⟨hnot, -⟩⟩ := readsBrace_or_takes hls
  · rw [String.toList_append] at hus
    refine hlex.append_brace hus (hkinds.trans ?_)
    rw [← hls.map_kind, ← hbare, List.map_map]
    rfl
  · exact absurd h hnot

/-- A brace behind a source with an open end is no token of its own. -/
theorem not_readsBrace_of_openEnded (h : (scanSource source).failure = none)
    (hopen : OpenEnded source) : ¬ReadsBrace source := by
  obtain ⟨ls, hls⟩ := exists_splits h
  obtain ⟨us, -, ⟨-, hclosed, -⟩ | ⟨hreads, -⟩⟩ := readsBrace_or_takes hls
  · exact absurd hopen hclosed
  · exact hreads

end Source

end PixelUnit.Sheet
