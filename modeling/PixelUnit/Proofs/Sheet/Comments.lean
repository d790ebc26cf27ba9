import PixelUnit.Proofs.Sheet.BrokenOff
import PixelUnit.Proofs.Sheet.Lexing
import PixelUnit.Proofs.Sheet.Lossless

/-!
# Texts that meet comments

A text meets a comment if one is opened where a token of the text would start (`MeetsComment`).
This is what a scan of the text shows, by a failure or by a token (`uncommented_iff`).

What stands behind the mark that opens a comment does not count for the tokens before it
(`Lexeme.read_exchange_start`). So a text meets a comment with more text behind it as it does
without, if that text cannot open one (`meetsComment_append_iff`), and a run of tokens of another
text, none of them a comment, meets none when it is read for itself
(`Scanner.Reads.not_meetsComment`).
-/

namespace PixelUnit.Sheet

/-! ## Marks that open comments -/

/-- The mark that opens a comment. -/
def commentStart : List Char := ['/', '*']

/-- A text with the start of a comment in it has at least two characters. -/
theorem exists_cons_cons_of_start {w : List Char} (h : commentStart <:+: w) :
    ∃ c d r, w = c :: d :: r := by
  obtain ⟨a, b, rfl⟩ := h
  match a with
  | [] => exact ⟨_, _, _, rfl⟩
  | [c] => exact ⟨_, _, _, rfl⟩
  | c :: d :: a => exact ⟨_, _, _, rfl⟩

/-- Whether an address is opened is seen before the mark. -/
theorem opensUrl_start {w : List Char} (hw : commentStart <:+: w) (r r' : List Char) :
    opensUrl (w ++ r') = opensUrl (w ++ r) := by
  obtain ⟨a, b, rfl⟩ := hw
  have hdrop : ∀ (a x : List Char), ((a ++ commentStart ++ b ++ x).dropWhile isSpacing).head? =
      ((a ++ commentStart).dropWhile isSpacing).head? := by
    intro a x
    induction a with
    | nil => rfl
    | cons c a ih =>
      by_cases hc : isSpacing c = true
      · simpa [List.dropWhile_cons, hc] using ih
      · simp [hc]
  cases a with
  | nil => rfl
  | cons c a =>
    by_cases hc : c = '('
    · subst hc
      show (!((a ++ commentStart ++ b ++ r').dropWhile isSpacing).head?.any isQuote) =
        !((a ++ commentStart ++ b ++ r).dropWhile isSpacing).head?.any isQuote
      rw [hdrop, hdrop]
    · have hhead : ∀ x, ∀ d ∈ (c :: a ++ commentStart ++ b ++ x).head?, d ≠ '(' := by
        intro x d hd
        exact Option.some.inj hd ▸ hc
      rw [opensUrl_of_head (hhead r), opensUrl_of_head (hhead r')]

/-- A string without an end takes all, and one that is broken off ends at a line feed, whatever
stands behind it. -/
theorem splitString_broken {quote : Char} {cs t u : List Char} {e : Fault.Cause}
    (h : splitString quote cs = (t, u, some e)) : e = .unclosedString ∧ u = [] ∨
      e = .brokenString ∧ ∃ v, u = '\n' :: v ∧
        ∀ v', splitString quote (t ++ '\n' :: v') = (t, '\n' :: v', some e) := by
  fun_induction splitString quote cs generalizing t u with
  | case1 =>
    simp only [Prod.mk.injEq, Option.some.injEq] at h
    exact Or.inl ⟨h.2.2.symm, h.2.1.symm⟩
  | case2 r =>
    simp only [Prod.mk.injEq, Option.some.injEq] at h
    obtain ⟨rfl, rfl, rfl⟩ := h
    exact Or.inr ⟨rfl, r, rfl, fun v' => rfl⟩
  | case3 c r t' u' e' hs ih =>
    simp only [Prod.mk.injEq] at h
    obtain ⟨rfl, rfl, rfl⟩ := h
    refine (ih hs).imp_right ?_
    rintro ⟨he, v, rfl, hv⟩
    exact ⟨he, v, rfl, fun v' => by simp [splitString, hv v']⟩
  | case4 => simp at h
  | case5 c r hfeed hslash hc t' u' e' hs ih =>
    simp only [Prod.mk.injEq] at h
    obtain ⟨rfl, rfl, rfl⟩ := h
    refine (ih hs).imp_right ?_
    rintro ⟨he, v, rfl, hv⟩
    refine ⟨he, v, rfl, fun v' => ?_⟩
    rw [List.cons_append, splitString, if_neg hc, hv v']
    · exact hfeed
    · rintro d s rfl -
      -- a backslash at the end would have nothing behind it
      cases r with
      | nil => simp [splitString] at hs
      | cons d r => exact hslash d r rfl rfl

/-- A lexeme is read the same, with the same fault, before a text that starts alike and looks the
same from there. -/
theorem Lexeme.read_exchange {kind : Token.Kind} {c : Char} {t r r' : List Char}
    {e : Option Fault.Cause} (hr : r ≠ []) (hhead : r'.head? = r.head?)
    (hahead : Ahead kind (c :: t) r r') (h : read c (t ++ r) = .ok ⟨kind, c :: t, r, e⟩) :
    read c (t ++ r') = .ok ⟨kind, c :: t, r', e⟩ := by
  cases e with
  | none => exact read_congr hr h hahead
  | some e =>
    refine read_of_form ?_
    generalize hl : (⟨kind, c :: t, r, some e⟩ : Lexeme) = l at h
    obtain ⟨hkind, hraw, hrest, hfault⟩ : kind = l.kind ∧ c :: t = l.raw ∧ r = l.rest ∧
        some e = l.fault := by
      rw [← hl]
      exact ⟨rfl, rfl, rfl, rfl⟩
    cases form_of_read h with
    | comment | spacing | string | punctuation | atKeyword | word => cases hfault
    | badString hc hs =>
      obtain rfl := Option.some.inj hfault
      obtain rfl := (List.cons.inj hraw).2
      obtain ⟨-, hnil⟩ | ⟨-, v, hcons, hbroken⟩ := splitString_broken hs
      · exact absurd (hrest.trans hnil) hr
      · obtain ⟨v', rfl⟩ : ∃ v', r' = '\n' :: v' :=
          List.head?_eq_some_iff.1 (by rw [hhead, hrest, hcons, List.head?_cons])
        exact hkind ▸ .badString hc (hbroken v')
    | url hc hs hname hu =>
      obtain rfl := hfault
      exact absurd (hrest.trans (splitUrl_unclosed hu)) hr

/-- What stands behind the mark that opens a comment does not count for the tokens before it. -/
theorem Lexeme.read_exchange_start {kind : Token.Kind} {c : Char} {t w r : List Char}
    {e : Option Fault.Cause} (hw : commentStart <:+: w)
    (h : read c (t ++ (w ++ r)) = .ok ⟨kind, c :: t, w ++ r, e⟩) (r' : List Char) :
    read c (t ++ (w ++ r')) = .ok ⟨kind, c :: t, w ++ r', e⟩ := by
  obtain ⟨a, b, v, rfl⟩ := exists_cons_cons_of_start hw
  obtain ⟨hspace, hword, hat⟩ := ahead_of_read h
  have hahead : Ahead kind (c :: t) (a :: b :: v ++ r) (a :: b :: v ++ r') :=
    ⟨hspace, fun hk => ⟨(hword hk).1, fun _ hopen => by rwa [opensUrl_start hw r r']⟩, hat⟩
  exact read_exchange (List.cons_ne_nil a (b :: v ++ r)) rfl hahead h

/-- A lexeme is read as before if more text follows, as long as a comment is opened behind it. -/
theorem Lexeme.read_append {c : Char} {cs : List Char} {l : Lexeme} (h : read c cs = .ok l)
    (hw : commentStart <:+: l.rest) (r : List Char) :
    read c (cs ++ r) = .ok { l with rest := l.rest ++ r } := by
  obtain ⟨t, hraw, rfl⟩ := Lexes.exists_read h
  have h' : read c (t ++ (l.rest ++ [])) = .ok ⟨l.kind, c :: t, l.rest ++ [], l.fault⟩ := by
    rw [List.append_nil, h, ← hraw]
  rw [List.append_assoc, read_exchange_start hw h' r, ← hraw]

/-- A text has neither of the characters that open and close comments. -/
structure CommentFree (q : List Char) : Prop where
  slash : '/' ∉ q
  star : '*' ∉ q

namespace CommentFree

variable {p q : List Char}

theorem mono (h : CommentFree q) (hsub : p ⊆ q) : CommentFree p :=
  ⟨fun hp => h.slash (hsub hp), fun hp => h.star (hsub hp)⟩

theorem append (hp : CommentFree p) (hq : CommentFree q) : CommentFree (p ++ q) :=
  ⟨fun h => (List.mem_append.1 h).elim hp.slash hq.slash,
    fun h => (List.mem_append.1 h).elim hp.star hq.star⟩

theorem of_isBlank (h : ∀ c ∈ q, Text.isBlank c = true) : CommentFree q :=
  ⟨fun hq => absurd (h _ hq) (by decide +kernel), fun hq => absurd (h _ hq) (by decide +kernel)⟩

theorem not_start_infix (h : CommentFree q) : ¬commentStart <:+: q :=
  fun hq => h.slash (hq.subset (by simp [commentStart]))

end CommentFree

/-! ## Texts that meet comments -/

/-- A comment is opened where a token of a text would start. -/
inductive MeetsComment : List Char → Prop
  | here (r : List Char) : MeetsComment ('/' :: '*' :: r)
  | behind {c : Char} {cs : List Char} {l : Lexeme} (hread : Lexeme.read c cs = .ok l)
      (hrest : MeetsComment l.rest) : MeetsComment (c :: cs)

namespace MeetsComment

variable {cs q : List Char}

/-- A text in which a comment is met has the start of one in it. -/
theorem start_infix (h : MeetsComment cs) : commentStart <:+: cs := by
  induction h with
  | here r => exact (List.prefix_append commentStart r).isInfix
  | @behind c cs l hread _ ih =>
    rw [← Lexeme.raw_append_rest hread]
    exact ih.trans (List.suffix_append _ _).isInfix

/-- A comment is met whatever follows. -/
theorem append (h : MeetsComment cs) (r : List Char) : MeetsComment (cs ++ r) := by
  induction h with
  | here s => exact .here (s ++ r)
  | behind hread hrest ih =>
    rw [List.cons_append]
    exact .behind (Lexeme.read_append hread hrest.start_infix r) ih

/-- A text behind that has neither character of the mark opens no comment. -/
theorem of_append (hq : CommentFree q) (h : MeetsComment (cs ++ q)) : MeetsComment cs := by
  have hstart := hq.not_start_infix
  generalize happ : cs ++ q = x at h
  induction h generalizing cs with
  | here r =>
    match cs, happ with
    | [], happ => exact absurd ⟨[], r, happ.symm⟩ hstart
    | [c], happ =>
      obtain rfl : q = '*' :: r := (List.cons.inj happ).2
      exact absurd List.mem_cons_self hq.star
    | c :: d :: cs, happ =>
      obtain ⟨rfl, hrest⟩ := List.cons.inj happ
      obtain ⟨rfl, -⟩ := List.cons.inj hrest
      exact .here cs
  | @behind c x l hread hrest ih =>
    obtain ⟨t, hraw, rfl⟩ := Lexes.exists_read hread
    obtain ⟨kind, raw, rest, e⟩ := l
    dsimp only at hraw hrest ih hread happ
    subst hraw
    cases cs with
    | nil =>
      obtain rfl : q = c :: t ++ rest := happ
      exact absurd (hrest.start_infix.trans (List.suffix_append _ rest).isInfix) hstart
    | cons d cs =>
      obtain ⟨rfl, hbehind⟩ := List.cons.inj happ
      rcases List.append_eq_append_iff.1 hbehind with ⟨y, rfl, rfl⟩ | ⟨y, rfl, rfl⟩
      · exact absurd (hrest.start_infix.trans (List.suffix_append y rest).isInfix) hstart
      · -- the token is the same without the text behind
        have hmeets := ih rfl
        have hread' := Lexeme.read_exchange_start hmeets.start_infix hread []
        rw [List.append_nil] at hread'
        exact .behind hread' hmeets

end MeetsComment

/-- A text meets the comments that it meets with text behind it, if that cannot open one. -/
theorem meetsComment_append_iff {cs q : List Char} (hq : CommentFree q) :
    MeetsComment (cs ++ q) ↔ MeetsComment cs :=
  ⟨.of_append hq, fun h => h.append q⟩

/-! ## Scans -/

theorem Lexeme.kind_of_start {cs : List Char} {l : Lexeme} (h : read '/' ('*' :: cs) = .ok l) :
    l.kind = .comment := by
  have hstart : startsComment (some '/') ('*' :: cs).head? = true := rfl
  rw [read, if_pos hstart] at h
  split at h <;> cases h
  rfl

/-- A comment is met if it is the first lexeme, or behind that. -/
theorem meetsComment_iff_of_read {c : Char} {cs : List Char} {l : Lexeme}
    (hread : Lexeme.read c cs = .ok l) :
    MeetsComment (c :: cs) ↔ l.kind = .comment ∨ MeetsComment l.rest := by
  constructor
  · intro h
    cases h with
    | here r => exact Or.inl (Lexeme.kind_of_start hread)
    | behind hread' hrest =>
      obtain rfl := Except.ok.inj (hread.symm.trans hread')
      exact Or.inr hrest
  · rintro (hkind | hrest)
    · have hmarks := Lexeme.marks_of_read hread
      rw [hkind] at hmarks
      obtain ⟨body, hraw⟩ := hmarks
      rw [← Lexeme.raw_append_rest hread, hraw]
      exact .here _
    · exact .behind hread hrest

/-- A scan fails or gives a comment exactly if the text meets one. -/
theorem Scanner.meetsComment_iff (s : Scanner) :
    MeetsComment s.rest ↔ s.scan.failure ≠ none ∨ ∃ t ∈ s.scan.tokens, t.kind = .comment := by
  induction s using scan.induct with
  | case1 s hrest =>
    rw [scan_nil hrest, hrest]
    refine iff_of_false (fun h => ?_) (by simp)
    cases h
  | case2 s hrest e s' hs =>
    rw [scan_error hrest hs]
    obtain ⟨body, -, hcomment, -⟩ := consume_error hrest hs
    rw [hcomment]
    exact iff_of_true (.here body) (Or.inl (Option.some_ne_none e))
  | case3 s hrest t s' hs hlt ih =>
    obtain ⟨c, r, l, hcons, hread, rfl, rfl⟩ := consume_ok hrest hs
    rw [scan_ok hrest hs, hcons, meetsComment_iff_of_read hread]
    have hbehind : MeetsComment l.rest ↔ _ := ih
    rw [hbehind, List.exists_mem_cons_iff]
    exact or_left_comm

/-- A text is read to its end, and there is no comment in it. -/
def Uncommented (text : String) : Prop :=
  (scanSource text).failure = none ∧ ∀ t ∈ (scanSource text).tokens, t.kind ≠ .comment

instance (text : String) : Decidable (Uncommented text) :=
  inferInstanceAs (Decidable (_ ∧ _))

/-- A text is free of comments if none is met in it. -/
theorem uncommented_iff {text : String} : Uncommented text ↔ ¬MeetsComment text.toList := by
  have hscan := Scanner.meetsComment_iff (.ofSource text.toList)
  rw [show text.toList = (Scanner.ofSource text.toList).rest from rfl, hscan, not_or, not_ne_iff,
    not_exists]
  exact and_congr_right fun _ => forall_congr' fun t => not_and.symm

/-! ## Tokens of another text -/

/-- Tokens of another text, none of them a comment, meet no comment when they are read for
themselves. -/
theorem Scanner.Reads.not_meetsComment {noted : List Fault} {ts us : List Token} :
    ∀ {pos : Position} {m r : List Char}, Reads noted pos (m ++ r) (ts ++ us) →
      (rawText ts).toList = m → (∀ t ∈ ts, t.kind ≠ .comment) → ¬MeetsComment m := by
  induction ts with
  | nil =>
    rintro pos m r - rfl - h
    cases h
  | cons t ts ih =>
    intro pos m r h hm hts hmeets
    obtain ⟨ht, htail⟩ := List.forall_mem_cons.1 hts
    generalize hx : m ++ r = x at h
    cases h with
    | @token _ c cs l _ hread _ hrest =>
      obtain ⟨u, hraw, rfl⟩ := Lexes.exists_read hread
      obtain ⟨kind, raw, rest, e⟩ := l
      dsimp only at hraw hrest hread hx ht
      subst hraw
      have hm' : m = c :: (u ++ (rawText ts).toList) := by
        rw [← hm]
        simp
      obtain rfl : rest = (rawText ts).toList ++ r := by
        rw [hm'] at hx
        simpa using hx.symm
      cases hmeets with
      | here v =>
        obtain ⟨rfl, hv⟩ := List.cons.inj hm'
        rw [← List.append_assoc, ← hv] at hread
        exact ht (Lexeme.kind_of_start hread)
      | @behind d ds l' hread' hrest' =>
        obtain ⟨rfl, rfl⟩ := List.cons.inj hm'
        -- the token in front is the one that was read with `r` behind
        have hsame := Lexeme.read_append hread' hrest'.start_infix r
        rw [List.append_assoc, hread] at hsame
        have hbehind : (rawText ts).toList ++ r = l'.rest ++ r :=
          congrArg Lexeme.rest (Except.ok.inj hsame)
        refine ih hrest rfl htail ?_
        rwa [List.append_cancel_right hbehind]

end PixelUnit.Sheet
