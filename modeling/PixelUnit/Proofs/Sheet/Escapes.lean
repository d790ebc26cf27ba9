import PixelUnit.Proofs.Sheet.Ahead
import PixelUnit.Proofs.Sheet.Statements

/-!
# Escapes

A backslash escapes the character behind it, unless that is a line feed, and the two belong to one
token: an escaped separator separates nothing. So it is inside a word and inside an at-keyword,
where a backslash is left over only at the end of the text (`splitWord_opensEscape`,
`opensEscape_splitIdent`).

The first character of a word is read without a look at what it is. A backslash there escapes
nothing, and backslashes behind it pair off among themselves. When as many of them follow as make up
pairs and a separator or a comment is next, the word ends, and its last backslash is left without
the character it escapes. Words of this shape are the only ones that lose an escape
(`keepsEscapes_iff`).
-/

namespace PixelUnit.Sheet

/-! ## Escapes in a text -/

/-- Whether a text ends in a backslash that escapes what comes behind it. A backslash takes the
character behind it along, so that an escaped backslash escapes nothing. -/
def opensEscape : List Char → Bool
  | [] => false
  | ['\\'] => true
  | '\\' :: _ :: r => opensEscape r
  | _ :: r => opensEscape r

theorem opensEscape_escape (c : Char) (r : List Char) :
    opensEscape ('\\' :: c :: r) = opensEscape r := rfl

/-- A character that is no backslash escapes nothing. -/
theorem opensEscape_cons {c : Char} (hc : c ≠ '\\') (r : List Char) :
    opensEscape (c :: r) = opensEscape r := by
  rw [opensEscape]
  · rintro rfl
    exact absurd rfl hc
  · rintro d s rfl
    exact absurd rfl hc

/-- One backslash more takes an escape away, or makes one. -/
theorem opensEscape_concat (cs : List Char) : opensEscape (cs ++ ['\\']) = !opensEscape cs := by
  fun_induction opensEscape cs with
  | case1 => rfl
  | case2 => rfl
  | case3 c r ih => exact ih
  | case4 c r hend hescape ih =>
    have hc : c ≠ '\\' := by
      rintro rfl
      cases r with
      | nil => exact hend rfl rfl
      | cons d r => exact hescape d r rfl rfl
    rw [List.cons_append, opensEscape_cons hc, ih]

/-- An even number of backslashes escapes nothing. -/
theorem opensEscape_replicate (n : Nat) : opensEscape (.replicate (2 * n) '\\') = false := by
  induction n with
  | zero => rfl
  | succ n ih => exact ih

/-! ## Escapes in words and identifiers -/

/-- Behind its first character, a word leaves an escape open only at the end of the text. -/
theorem splitWord_opensEscape (cs : List Char) (h : opensEscape (splitWord cs).1 = true) :
    (splitWord cs).2 = [] := by
  fun_induction splitWord cs with
  | case1 => rfl
  | case2 c r t u hs ih =>
    rw [hs] at ih
    exact ih h
  | case3 => cases h
  | case4 c r hslash hc t u hs ih =>
    rw [hs] at ih
    by_cases hb : c = '\\'
    · -- this backslash is the last character
      cases r with
      | nil => exact (congrArg Prod.snd hs).symm
      | cons d r => exact (hslash d r hb rfl).elim
    · exact ih (opensEscape_cons hb t ▸ h)

/-- An identifier leaves no escape open. -/
theorem opensEscape_splitIdent (cs : List Char) : opensEscape (splitIdent cs).1 = false := by
  fun_induction splitIdent cs with
  | case1 => rfl
  | case2 => rfl
  | case3 c r _ t u hs ih =>
    rw [hs] at ih
    exact ih
  | case4 c r _ hc t u hs ih =>
    rw [hs] at ih
    have hb : c ≠ '\\' := by
      rintro rfl
      rw [isIdent_backslash] at hc
      cases hc
    rwa [opensEscape_cons hb]
  | case5 => rfl

/-- Behind a backslash, what a word takes pairs off anew, so that the two readings of its escapes
differ as long as there are only backslashes. -/
theorem splitWord_behind_backslash (cs : List Char)
    (h : opensEscape ('\\' :: (splitWord cs).1) = true) :
    (splitWord cs).2 = [] ∨ ∃ n, (splitWord cs).1 = .replicate (2 * n) '\\' := by
  fun_induction splitWord cs with
  | case1 => exact Or.inl rfl
  | case2 c r t u hs ih =>
    have hword := splitWord_opensEscape r
    rw [hs] at ih hword
    rw [opensEscape_escape] at h
    by_cases hb : c = '\\'
    · subst hb
      obtain hu | ⟨n, rfl⟩ := ih h
      · exact Or.inl hu
      · exact Or.inr ⟨n + 1, rfl⟩
    · exact Or.inl (hword (opensEscape_cons hb t ▸ h))
  | case3 => exact Or.inr ⟨0, rfl⟩
  | case4 c r _ _ t u hs =>
    have hword := splitWord_opensEscape r
    rw [hs] at hword
    exact Or.inl (hword h)

/-! ## Escapes in tokens -/

/-- Words and at-keywords have escapes. -/
def Token.Kind.HasEscapes (kind : Token.Kind) : Prop :=
  kind = .word ∨ kind = .atKeyword

/-- A backslash starts a word. -/
theorem Lexeme.kind_of_backslash {cs : List Char} {l : Lexeme}
    (h : Lexeme.read '\\' cs = .ok l) : l.kind = .word := by
  cases Lexeme.form_of_read h with
  | word => rfl
  | comment hc => exact absurd hc (by decide)
  | atKeyword hc => exact absurd hc (by decide)
  | spacing hc => exact absurd hc (by decide)
  | string hc => exact absurd hc (by decide)
  | badString hc => exact absurd hc (by decide)
  | punctuation hc => cases hc
  | url hc hs hname => simp [isUrlName] at hname

/-- An escape is left open by a token at the end of the text, and by one of backslashes only. -/
theorem Lexeme.rest_of_opensEscape {c : Char} {cs : List Char} {l : Lexeme}
    (h : Lexeme.read c cs = .ok l) (hkind : l.kind.HasEscapes) (hopen : opensEscape l.raw = true) :
    l.rest = [] ∨ ∃ n, l.raw = .replicate (2 * n + 1) '\\' := by
  cases Lexeme.form_of_read h with
  | comment | spacing | string | badString | url => simp [Token.Kind.HasEscapes] at hkind
  | punctuation hc =>
    unfold punctuation? at hc
    split at hc <;> cases hc <;> simp [Token.Kind.HasEscapes] at hkind
  | atKeyword hc hs =>
    have hclosed := opensEscape_splitIdent cs
    rw [hc, opensEscape_cons (by decide)] at hopen
    rw [hs, hopen] at hclosed
    cases hclosed
  | word hc hs =>
    by_cases hb : c = '\\'
    · subst hb
      have hbehind := splitWord_behind_backslash cs
      rw [hs] at hbehind
      obtain hu | ⟨n, rfl⟩ := hbehind hopen
      · exact Or.inl hu
      · exact Or.inr ⟨n, rfl⟩
    · have hword := splitWord_opensEscape cs
      rw [hs] at hword
      exact Or.inl (hword (opensEscape_cons hb _ ▸ hopen))

namespace Scanner.Reads

variable {noted : List Fault} {pos : Position} {cs u : List Char} {before behind : List Token}
  {t : Token}

/-- A token that starts with a backslash is a word. -/
theorem kind_of_backslash (h : Reads noted pos cs (before ++ t :: behind))
    (ht : t.raw.toList.head? = some '\\') : t.kind = .word := by
  obtain ⟨c, r, l, hread, hkind, hraw, hrest, -⟩ := h.exists_read
  have hc : c = '\\' := by
    have hhead := congrArg List.head? (Lexeme.raw_append_rest hread)
    rw [← hraw, List.head?_append, ht] at hhead
    exact (Option.some.inj hhead).symm
  rw [hkind, Lexeme.kind_of_backslash (hc ▸ hread)]

/-- The character behind a backslash belongs to its token, unless it comes behind the token and all
of this is backslashes. -/
theorem escape_kept (h : Reads noted pos cs (before ++ t :: behind)) (hkind : t.kind.HasEscapes)
    (hclosed : opensEscape u = false) (hu : u ++ ['\\'] <+: t.raw.toList) {c : Char}
    (hc : u ++ ['\\', c] <+: t.raw.toList ++ (rawText behind).toList) :
    u ++ ['\\', c] <+: t.raw.toList ∨ c ∈ (rawText behind).toList.head? ∧
      ∃ n, t.raw.toList = .replicate (2 * n + 1) '\\' := by
  obtain hkept | hshort := List.prefix_or_prefix_of_prefix hc (List.prefix_append _ _)
  · exact Or.inl hkept
  rw [List.append_cons, List.prefix_concat_iff, ← List.append_cons] at hshort
  obtain hwhole | hshort := hshort
  · exact Or.inl (hwhole ▸ List.prefix_refl _)
  -- the token ends with the backslash, in front of the character
  have htext : t.raw.toList = u ++ ['\\'] := hshort.eq_of_length_le hu.length_le
  have hbehind : c ∈ (rawText behind).toList.head? := by
    rw [htext, List.append_cons, List.prefix_append_right_inj] at hc
    obtain ⟨v, hv⟩ := hc
    exact hv ▸ rfl
  obtain ⟨d, r, l, hread, hk, hraw, hrest, -⟩ := h.exists_read
  have hopen : opensEscape l.raw = true := by
    rw [← hraw, htext, opensEscape_concat, hclosed]
    rfl
  obtain hend | ⟨n, hn⟩ := Lexeme.rest_of_opensEscape hread (hk ▸ hkind) hopen
  · rw [hrest, hend] at hbehind
    cases hbehind
  · exact Or.inr ⟨hbehind, n, hraw.trans hn⟩

end Scanner.Reads

/-! ## Escapes in a source -/

/-- Where a backslash is the first character of a token, or is not escaped itself in a word or an
at-keyword, a character behind it that is no line feed belongs to the same token, and this is a word
or an at-keyword. -/
def KeepsEscapes (source : String) : Prop :=
  ∀ before t behind, (scanSource source).tokens = before ++ t :: behind →
    ∀ u c v, source.toList = (rawText before).toList ++ (u ++ '\\' :: c :: v) → c ≠ '\n' →
      u ++ ['\\'] <+: t.raw.toList → u = [] ∨ t.kind.HasEscapes ∧ opensEscape u = false →
      u ++ ['\\', c] <+: t.raw.toList ∧ t.kind.HasEscapes

/-- A source keeps all of its escapes exactly if nothing but a line feed is behind any token that is
an odd number of backslashes. -/
theorem keepsEscapes_iff {source : String} (h : (scanSource source).failure = none) :
    KeepsEscapes source ↔
      ∀ before t behind, (scanSource source).tokens = before ++ t :: behind →
        ∀ n, t.raw.toList = .replicate (2 * n + 1) '\\' →
          ∀ c ∈ (rawText behind).toList.head?, c = '\n' := by
  have hreads := reads_scanSource h
  have hsource : ∀ {before t behind}, (scanSource source).tokens = before ++ t :: behind →
      source.toList = (rawText before).toList ++ (t.raw.toList ++ (rawText behind).toList) := by
    intro before t behind htokens
    rw [← hreads.rawText_eq, htokens, rawText_append, rawText_cons, String.toList_append,
      String.toList_append]
  constructor
  · intro hkeeps before t behind htokens n hraw c hc
    by_contra hfeed
    obtain ⟨v, hbehind⟩ := List.head?_eq_some_iff.1 hc
    have hword := (htokens ▸ hreads).kind_of_backslash (by rw [hraw]; rfl)
    have hfront : t.raw.toList = .replicate (2 * n) '\\' ++ ['\\'] := by
      rw [hraw, List.replicate_succ']
    have hkept := (hkeeps before t behind htokens (.replicate (2 * n) '\\') c v
      (by rw [hsource htokens, hfront, hbehind, List.append_assoc]; rfl) hfeed
      (hfront ▸ List.prefix_refl _) (Or.inr ⟨Or.inl hword, opensEscape_replicate n⟩)).1
    have hlength := hkept.length_le
    simp [hraw] at hlength
  · intro hlone before t behind htokens u c v hsplit hc hu hescape
    rw [hsource htokens, List.append_cancel_left_eq] at hsplit
    obtain ⟨hkind, hclosed⟩ : t.kind.HasEscapes ∧ opensEscape u = false := by
      refine hescape.elim (fun hnil => ?_) id
      subst hnil
      obtain ⟨w, hw⟩ := hu
      exact ⟨Or.inl ((htokens ▸ hreads).kind_of_backslash (by rw [← hw]; rfl)), rfl⟩
    refine ⟨?_, hkind⟩
    have hprefix : u ++ ['\\', c] <+: t.raw.toList ++ (rawText behind).toList :=
      hsplit ▸ ⟨v, by simp⟩
    obtain hkept | ⟨hbehind, n, hn⟩ := (htokens ▸ hreads).escape_kept hkind hclosed hu hprefix
    · exact hkept
    · exact absurd (hlone before t behind htokens n hn c hbehind) hc

/-- An escaped colon in a name, an escaped semicolon in a value and an escaped blank in the name of
an at-rule. -/
def escapedNames : String := ".a\\:b\x7bc:d\\;e;@f\\ g\x7d"

/-- Escapes within a word are kept. -/
theorem keepsEscapes_escapedNames :
    (scanSource escapedNames).failure = none ∧ KeepsEscapes escapedNames := by
  have hfailure : (scanSource escapedNames).failure = none := by decide +kernel
  refine ⟨hfailure, (keepsEscapes_iff hfailure).2 fun before t behind htokens n hn => ?_⟩
  have hall : ∀ t ∈ (scanSource escapedNames).tokens, t.raw.toList.head? ≠ some '\\' := by
    decide +kernel
  refine absurd ?_ (hall t (htokens ▸ List.mem_append_right _ List.mem_cons_self))
  rw [hn]
  rfl

/-- A semicolon behind a backslash that a word starts with. -/
def escapedSemicolon : String := "\\;"

/-- An escape at the start of a word is not kept: the semicolon behind the backslash is a token. -/
theorem not_keepsEscapes_escapedSemicolon :
    (scanSource escapedSemicolon).failure = none ∧ ¬KeepsEscapes escapedSemicolon := by
  refine ⟨by decide +kernel, fun hkeeps => ?_⟩
  have htokens : (scanSource escapedSemicolon).tokens =
      [] ++ ⟨.word, "\\", ⟨1, 1⟩⟩ :: [⟨.semicolon, ";", ⟨1, 2⟩⟩] := by decide +kernel
  exact absurd (hkeeps _ _ _ htokens [] ';' [] rfl (by decide) (List.prefix_refl _) (Or.inl rfl)).1
    (by decide)

end PixelUnit.Sheet
