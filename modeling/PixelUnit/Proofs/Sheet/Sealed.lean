import PixelUnit.Proofs.Sheet.Exchange

/-!
# Tokens that see nothing ahead

Braces, semicolons and comments are read without a look at what comes behind them, and no token
before them sees through them (`Seals`). So the text behind one of them can be exchanged, whatever
takes its place (`Lexes.exchange_closed`). White space and semicolons stay what they are before
every text that does not go on with white space (`Lexes.exchange_passed`).
-/

namespace PixelUnit.Sheet

/-- A token of this class ends a statement or a block, opens a block, or is a comment. -/
def Token.Kind.IsClosed (k : Token.Kind) : Prop :=
  k = .semicolon ∨ k = .openBrace ∨ k = .closeBrace ∨ k = .comment

/-- The last token sees nothing ahead. -/
def EndsClosed (ts : List Token) : Prop :=
  ∃ t, ts.getLast? = some t ∧ t.kind.IsClosed

namespace EndsClosed

variable {ts us : List Token}

theorem append (h : EndsClosed us) (ts : List Token) : EndsClosed (ts ++ us) := by
  obtain ⟨t, ht, hkind⟩ := h
  exact ⟨t, by rw [List.getLast?_append, ht, Option.some_or], hkind⟩

theorem ne_nil (h : EndsClosed ts) : ts ≠ [] := by
  rintro rfl
  obtain ⟨t, ht, -⟩ := h
  cases ht

end EndsClosed

/-! ## Sealed texts -/

/-- No token sees through a text: it ends in a brace or a semicolon, or in the end of a comment. -/
def Seals (p : List Char) : Prop :=
  ∃ q x, p = q ++ [x] ∧ (x = ';' ∨ x = '\x7b' ∨ x = '\x7d' ∨ x = '/' ∧ q ≠ [])

namespace Seals

variable {p : List Char}

theorem append (h : Seals p) (q : List Char) : Seals (q ++ p) := by
  obtain ⟨q', x, rfl, hx⟩ := h
  refine ⟨q ++ q', x, by rw [List.append_assoc], hx.imp_right (.imp_right (.imp_right ?_))⟩
  exact fun ⟨hx, hne⟩ => ⟨hx, fun hnil => hne (List.append_eq_nil_iff.1 hnil).2⟩

theorem ne_nil (h : Seals p) : p ≠ [] := by
  obtain ⟨q, x, rfl, -⟩ := h
  simp

/-- One character seals if it is a separator, but no parenthesis; more than one is seen as it is. -/
theorem exists_cons_cons (h : Seals p) :
    (∃ x, p = [x] ∧ isSeparator (some x) = true ∧ x ≠ '(') ∨ ∃ c d r, p = c :: d :: r := by
  obtain ⟨q, x, rfl, hx⟩ := h
  match q, hx with
  | [], hx =>
    refine Or.inl ⟨x, rfl, ?_⟩
    rcases hx with rfl | rfl | rfl | ⟨-, hne⟩
    · exact ⟨rfl, by decide⟩
    · exact ⟨rfl, by decide⟩
    · exact ⟨rfl, by decide⟩
    · exact absurd rfl hne
  | [c], _ => exact Or.inr ⟨c, x, [], rfl⟩
  | c :: d :: q, _ => exact Or.inr ⟨c, d, q ++ [x], rfl⟩

theorem head?_eq (h : Seals p) (r r' : List Char) : (p ++ r').head? = (p ++ r).head? := by
  rw [List.head?_append_of_ne_nil _ h.ne_nil, List.head?_append_of_ne_nil _ h.ne_nil]

/-- Behind a text that seals, what follows plays no part in where a word ends. -/
theorem endsWord_eq (h : Seals p) (r r' : List Char) :
    endsWord (p ++ r') = endsWord (p ++ r) := by
  rcases h.exists_cons_cons with ⟨x, rfl, hx, -⟩ | ⟨c, d, q, rfl⟩
  · simp [endsWord, hx]
  · rfl

theorem endsIdent_eq (h : Seals p) (r r' : List Char) :
    endsIdent (p ++ r') = endsIdent (p ++ r) := by
  rcases h.exists_cons_cons with ⟨x, rfl, hx, -⟩ | ⟨c, d, q, rfl⟩
  · obtain ⟨hident, hslash, -⟩ := separators_plain x (mem_separators hx)
    simp [endsIdent, isEscape, hident, beq_false_of_ne hslash]
  · rfl

/-- Behind a text that seals, what follows plays no part in whether an address is opened. -/
theorem opensUrl_eq (h : Seals p) (r r' : List Char) :
    opensUrl (p ++ r') = opensUrl (p ++ r) := by
  rcases h.exists_cons_cons with ⟨x, rfl, -, hx⟩ | ⟨c, d, q, rfl⟩
  · have hhead : ∀ s : List Char, ∀ c ∈ ([x] ++ s).head?, c ≠ '(' := by
      intro s c hc
      exact Option.some.inj hc ▸ hx
    rw [opensUrl_of_head (hhead r), opensUrl_of_head (hhead r')]
  by_cases hc : c = '('
  · -- the last character is no white space
    obtain ⟨q', x, happ, hx⟩ := h
    obtain ⟨hspacing, hlast⟩ : isSpacing x = false ∧ (d :: q).getLast? = some x := by
      refine ⟨?_, ?_⟩
      · rcases hx with rfl | rfl | rfl | ⟨rfl, -⟩ <;> rfl
      · have hlast := congrArg List.getLast? happ
        rwa [List.getLast?_concat, List.getLast?_cons_cons] at hlast
    have hsame : ∀ s : List Char, ((d :: q ++ s).dropWhile isSpacing).head? =
        ((d :: q).dropWhile isSpacing).head? := by
      intro s
      have hne : (d :: q).dropWhile isSpacing ≠ [] := by
        rw [Ne, List.dropWhile_eq_nil_iff]
        intro hall
        rw [hall x (List.mem_of_getLast? hlast)] at hspacing
        cases hspacing
      rw [List.dropWhile_append, if_neg (by simpa using hne), List.head?_append_of_ne_nil _ hne]
    subst hc
    show (!((d :: q ++ r').dropWhile isSpacing).head?.any isQuote) =
      !((d :: q ++ r).dropWhile isSpacing).head?.any isQuote
    rw [hsame, hsame]
  · have hhead : ∀ s : List Char, ∀ e ∈ (c :: d :: q ++ s).head?, e ≠ '(' := by
      intro s e he
      exact Option.some.inj he ▸ hc
    rw [opensUrl_of_head (hhead r), opensUrl_of_head (hhead r')]

/-- A lexeme ends alike before two texts that are sealed by the same one. -/
theorem ahead (h : Seals p) {kind : Token.Kind} {name r : List Char}
    (hahead : Lexeme.Ahead kind name (p ++ r) (p ++ r)) (r' : List Char) :
    Lexeme.Ahead kind name (p ++ r) (p ++ r') where
  spacing hk := h.head?_eq r r' ▸ hahead.spacing hk
  word hk := ⟨(h.endsWord_eq r r').trans (hahead.word hk).1, fun _ hr =>
    (h.opensUrl_eq r r').trans hr⟩
  atKeyword hk := (h.endsIdent_eq r r').trans (hahead.atKeyword hk)

end Seals

/-- A closed token seals what is before it. -/
theorem Token.Kind.IsClosed.seals {k : Token.Kind} {raw : List Char} (hk : k.IsClosed)
    (hmarks : k.Marks raw) : Seals raw := by
  rcases hk with rfl | rfl | rfl | rfl
  · exact ⟨[], ';', hmarks, Or.inl rfl⟩
  · exact ⟨[], '\x7b', hmarks, Or.inr (Or.inl rfl)⟩
  · exact ⟨[], '\x7d', hmarks, Or.inr (Or.inr (Or.inl rfl))⟩
  · obtain ⟨body, rfl⟩ := hmarks
    exact ⟨'/' :: '*' :: body ++ ['*'], '/', by simp, Or.inr (Or.inr (Or.inr ⟨rfl, by simp⟩))⟩

/-! ## Exchanging what is behind -/

/-- A closed token is read before every text. -/
theorem Lexeme.read_closed {kind : Token.Kind} {c : Char} {t r : List Char}
    (hkind : kind.IsClosed) (h : read c (t ++ r) = .ok ⟨kind, c :: t, r, none⟩) (r' : List Char) :
    read c (t ++ r') = .ok ⟨kind, c :: t, r', none⟩ := by
  generalize hl : (⟨kind, c :: t, r, none⟩ : Lexeme) = l at h
  generalize hcs : t ++ r = cs at h
  refine read_of_form ?_
  cases form_of_read h with
  | comment hc hopen hs =>
    cases hl
    exact .comment hc rfl (splitComment_congr hs r')
  | punctuation hc =>
    cases hl
    exact .punctuation hc
  | spacing | string | badString | atKeyword | url | word =>
    obtain rfl := (Lexeme.mk.inj hl).1
    rcases hkind with hkind | hkind | hkind | hkind <;> cases hkind

namespace Lexes

variable {r r' q : List Char} {qs ys xs : List Token}

/-- Behind a closed token every other text can stand. -/
theorem exchange_closed (h : Lexes (q ++ r) (qs ++ ys)) (hq : (rawText qs).toList = q)
    (hqs : qs = [] ∨ EndsClosed qs) (hxs : Lexes r' xs) : Lexes (q ++ r') (qs ++ xs) := by
  refine exchange_behind hxs h hq fun pre t post c u hsplit _ hlex hread => ?_
  obtain ⟨v, hv, hclosed⟩ := hqs.resolve_left (by simp [hsplit])
  rcases List.eq_nil_or_concat' post with rfl | ⟨post, w, rfl⟩
  · obtain rfl : t = v := by simpa [hsplit] using hv
    exact Lexeme.read_closed hclosed hread r'
  · obtain rfl : w = v := by
      rw [hsplit, ← List.cons_append, ← List.append_assoc, List.getLast?_concat] at hv
      exact Option.some.inj hv
    have hmarks := hlex.lexical.marks w (by simp)
    have hseals : Seals (rawText (post ++ [w])).toList := by
      rw [rawText_append, String.toList_append]
      refine Seals.append ?_ _
      simpa using hclosed.seals hmarks
    have hne : (rawText (post ++ [w])).toList ++ r ≠ [] :=
      fun hnil => hseals.ne_nil (List.append_eq_nil_iff.1 hnil).1
    exact Lexeme.read_congr hne hread (hseals.ahead (Lexeme.ahead_of_read hread) r')

/-- White space and semicolons stay what they are before a text without white space in front. -/
theorem exchange_passed (h : Lexes (q ++ r) (qs ++ ys)) (hq : (rawText qs).toList = q)
    (hqs : ∀ t ∈ qs, t.kind = .spacing ∨ t.kind = .semicolon) (hxs : Lexes r' xs)
    (hhead : ∀ d ∈ r'.head?, isSpacing d = false) : Lexes (q ++ r') (qs ++ xs) := by
  refine exchange_behind hxs h hq fun pre t post c u hsplit ht hlex hread => ?_
  rcases hqs t (by simp [hsplit]) with hkind | hkind
  · rw [hkind] at hread ⊢
    refine Lexeme.read_spacing (Lexeme.marks_of_read hread) fun d hd => ?_
    cases post with
    | nil => exact hhead d hd
    | cons v post =>
      obtain ⟨e, w, -, -, hv, -⟩ := hlex.exists_of_cons
      refine (Lexeme.ahead_of_read hread).spacing rfl d ?_
      rw [hv] at hd ⊢
      simpa using hd
  · exact Lexeme.read_closed (Or.inl hkind) hread _

end Lexes

end PixelUnit.Sheet
