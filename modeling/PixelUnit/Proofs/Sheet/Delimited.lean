import Mathlib.Data.List.Chain
import PixelUnit.Proofs.Sheet.BrokenOff
import PixelUnit.Proofs.Sheet.Lexing
import PixelUnit.Proofs.Sheet.Words

/-!
# Tokens by themselves

A token is read with a look at what stands behind it. What was seen there only ended the token: its
own text is read as the same token, and as nothing else (`Lexeme.read_raw`). A string that a line
feed breaks off is then broken off by the end of the text.

A word takes all that a word can take, and white space all white space, so neither has one of its
own class behind it (`Lexeme.parts_of_read`). Both hold of all tokens of every source
(`scanSource_delimits`).
-/

namespace PixelUnit.Sheet

/-! ## Lexemes by themselves -/

/-- What was read of a broken string is a string without an end. -/
theorem splitString_alone {quote : Char} {cs t u : List Char} {e : Fault.Cause}
    (h : splitString quote cs = (t, u, some e)) :
    splitString quote t = (t, [], some .unclosedString) := by
  fun_induction splitString quote cs generalizing t u with
  | case1 => cases h; rfl
  | case2 => cases h; rfl
  | case3 c r t' u' e' hs ih =>
    obtain ⟨rfl, rfl, rfl⟩ : '\\' :: c :: t' = t ∧ u' = u ∧ e' = some e := by simpa using h
    simp [splitString, ih hs]
  | case4 => simp at h
  | case5 c r hfeed hslash hc t' u' e' hs ih =>
    obtain ⟨rfl, rfl, rfl⟩ : c :: t' = t ∧ u' = u ∧ e' = some e := by simpa using h
    rw [splitString, if_neg hc, ih hs]
    · exact hfeed
    · rintro d s rfl rfl
      -- the last character is this backslash, or it escapes another
      cases r with
      | nil => simp [splitString] at hs
      | cons d r => exact hslash d r rfl rfl

namespace Lexeme

/-- Every lexeme ends before the end of the text. -/
theorem ahead_nil (kind : Token.Kind) (name r : List Char) : Ahead kind name r [] :=
  ⟨fun _ => nofun, fun _ => ⟨rfl, fun _ _ => rfl⟩, fun _ => rfl⟩

/-- The text of a lexeme is read as a lexeme of the same class, and all of it. -/
theorem read_raw {c : Char} {cs : List Char} {l : Lexeme} (h : read c cs = .ok l) :
    ∃ t e, l.raw = c :: t ∧ read c t = .ok ⟨l.kind, c :: t, [], e⟩ := by
  obtain ⟨t, hraw, hcs⟩ := Lexes.exists_read h
  obtain ⟨kind, raw, rest, fault⟩ := l
  dsimp only at hraw hcs ⊢
  subst hraw hcs
  by_cases hrest : rest = []
  · subst hrest
    rw [List.append_nil] at h
    exact ⟨t, fault, rfl, h⟩
  · cases fault with
    | none => exact ⟨t, none, rfl, by simpa using read_congr hrest h (ahead_nil kind (c :: t) rest)⟩
    | some e =>
      generalize hl : (⟨kind, c :: t, rest, some e⟩ : Lexeme) = l at h
      generalize t ++ rest = cs at h
      cases form_of_read h with
      | badString hc hs =>
        cases hl
        exact ⟨t, _, rfl, read_of_form (.badString hc (splitString_alone hs))⟩
      | url hc hs hname hu =>
        cases hl
        exact absurd (splitUrl_unclosed hu) hrest
      | comment | spacing | string | punctuation | atKeyword | word => cases hl

end Lexeme

/-! ## Neighbours -/

/-- Two tokens are not both words, and not both white space. -/
def Token.Kind.Parts (k k' : Token.Kind) : Prop :=
  ¬(k = .word ∧ k' = .word) ∧ ¬(k = .spacing ∧ k' = .spacing)

theorem StartsWord.endsWord_eq_false {c : Char} {cs : List Char} (h : StartsWord c cs) :
    endsWord (c :: cs) = false := by
  simp [endsWord, isSeparator, h.noComment, h.noSpacing, h.noQuote, h.noPunctuation]

/-- What is read behind a lexeme is no word if that is a word, and no white space if it is white
space. -/
theorem Lexeme.parts_of_read {c d : Char} {cs ds : List Char} {l l' : Lexeme}
    (h : read c cs = .ok l) (hrest : l.rest = d :: ds) (h' : read d ds = .ok l') :
    l.kind.Parts l'.kind := by
  obtain ⟨t, hraw, rfl⟩ := Lexes.exists_read h
  obtain ⟨t', hraw', -⟩ := Lexes.exists_read h'
  obtain ⟨kind, raw, rest, fault⟩ := l
  obtain ⟨kind', raw', rest', fault'⟩ := l'
  dsimp only at hraw hraw' hrest h ⊢
  subst hraw hraw' hrest
  have hahead := ahead_of_read h
  constructor
  · rintro ⟨rfl, rfl⟩
    have hends := (hahead.word rfl).1
    rw [(word_of_read h').1.endsWord_eq_false] at hends
    cases hends
  · rintro ⟨rfl, rfl⟩
    have hspacing := marks_of_read h' d List.mem_cons_self
    rw [hahead.spacing rfl d rfl] at hspacing
    cases hspacing

/-! ## All tokens of a source -/

namespace Scanner

/-- A text that is one lexeme is scanned as one token. -/
theorem scan_of_read {s : Scanner} {c : Char} {t : List Char} {kind : Token.Kind}
    {e : Option Fault.Cause} (hs : s.rest = c :: t)
    (h : Lexeme.read c t = .ok ⟨kind, c :: t, [], e⟩) :
    s.scan.failure = none ∧ s.scan.tokens = [⟨kind, String.ofList (c :: t), s.pos⟩] := by
  have hconsume := consume_of_read hs h
  rw [scan_ok (by simp [hs]) hconsume, scan_nil (show (s.past _).rest = [] from rfl)]
  exact ⟨rfl, rfl⟩

/-- What a scan starts with is read off the text in front. -/
theorem exists_read_of_head? {s : Scanner} {t : Token} (h : s.scan.tokens.head? = some t) :
    ∃ c r l, s.rest = c :: r ∧ Lexeme.read c r = .ok l ∧ t.kind = l.kind := by
  induction s using scan.induct with
  | case1 s hrest =>
    rw [scan_nil hrest] at h
    cases h
  | case2 s hrest e s' hs =>
    rw [scan_error hrest hs] at h
    cases h
  | case3 s hrest u s' hs hlt ih =>
    rw [scan_ok hrest hs] at h
    obtain ⟨c, r, l, hcons, hread, rfl, -⟩ := consume_ok hrest hs
    obtain rfl := Option.some.inj h
    exact ⟨c, r, l, hcons, hread, rfl⟩

/-- All tokens of a scan are read off somewhere, and no two neighbours are of one kind. -/
theorem delimits_scan (s : Scanner) :
    (∀ t ∈ s.scan.tokens, ∃ c r l, Lexeme.read c r = .ok l ∧ t.kind = l.kind ∧
      t.raw = String.ofList l.raw) ∧
    s.scan.tokens.IsChain fun t u => t.kind.Parts u.kind := by
  induction s using scan.induct with
  | case1 s hrest =>
    rw [scan_nil hrest]
    exact ⟨List.forall_mem_nil _, .nil⟩
  | case2 s hrest e s' hs =>
    rw [scan_error hrest hs]
    exact ⟨List.forall_mem_nil _, .nil⟩
  | case3 s hrest t s' hs hlt ih =>
    rw [scan_ok hrest hs]
    obtain ⟨c, r, l, -, hread, rfl, rfl⟩ := consume_ok hrest hs
    obtain ⟨hall, hchain⟩ := ih
    refine ⟨List.forall_mem_cons.2 ⟨⟨c, r, l, hread, rfl, rfl⟩, hall⟩,
      List.isChain_cons.2 ⟨fun u hu => ?_, hchain⟩⟩
    obtain ⟨d, r', l', hcons, hread', hkind⟩ := exists_read_of_head? hu
    rw [hkind]
    exact Lexeme.parts_of_read hread hcons hread'

end Scanner

/-- Every token of a source is read alike from its own text, which gives nothing else, and no two
words and no two runs of white space are neighbours. -/
theorem scanSource_delimits (source : String) :
    (∀ t ∈ (scanSource source).tokens, (scanSource t.raw).failure = none ∧
      (scanSource t.raw).tokens = [⟨t.kind, t.raw, .start⟩]) ∧
    (scanSource source).tokens.IsChain fun t u => t.kind.Parts u.kind := by
  obtain ⟨hall, hchain⟩ := Scanner.delimits_scan (.ofSource source.toList)
  refine ⟨fun t ht => ?_, hchain⟩
  obtain ⟨c, r, l, hread, hkind, hraw⟩ := hall t ht
  obtain ⟨u, e, hu, halone⟩ := Lexeme.read_raw hread
  rw [hu] at hraw
  have hrest : (Scanner.ofSource t.raw.toList).rest = c :: u := by
    rw [hraw, String.toList_ofList]
    rfl
  obtain ⟨hfailure, htokens⟩ := Scanner.scan_of_read hrest halone
  refine ⟨hfailure, htokens.trans ?_⟩
  rw [hkind, hraw]
  rfl

end PixelUnit.Sheet
