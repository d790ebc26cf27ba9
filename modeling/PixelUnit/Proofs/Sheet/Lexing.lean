import PixelUnit.Proofs.Sheet.Ahead
import PixelUnit.Proofs.Sheet.Placeless
import PixelUnit.Proofs.Sheet.RoundTrip

/-!
# Texts read as tokens

`Lexes` says that a text is read as some tokens, without a fault; the places of tokens are left
out. It is what scanning does (`Lexes.of_reads`, `Lexes.scanSource`), taken apart at the front of
the text, so that the text behind a token can be exchanged: verbatim tokens before a barrier stay
what they are (`Lexes.barrier`).
-/

namespace PixelUnit.Sheet

/-- A token of a class and a text, without a place. -/
def Token.of (kind : Token.Kind) (raw : List Char) : Token :=
  ⟨kind, String.ofList raw, .nowhere⟩

@[simp] theorem Token.toList_raw_of (kind : Token.Kind) (raw : List Char) :
    (Token.of kind raw).raw.toList = raw := String.toList_ofList

/-- A text is read as tokens, and nothing is wrong with them. -/
inductive Lexes : List Char → List Token → Prop
  | nil : Lexes [] []
  | cons {kind : Token.Kind} {c : Char} {t r : List Char} {ts : List Token}
      (hread : Lexeme.read c (t ++ r) = .ok ⟨kind, c :: t, r, none⟩) (hrest : Lexes r ts) :
      Lexes (c :: (t ++ r)) (.of kind (c :: t) :: ts)

/-- A token is given where a lexeme is read. -/
theorem Scanner.consume_of_read {s : Scanner} {c : Char} {r : List Char} {l : Lexeme}
    (hs : s.rest = c :: r) (h : Lexeme.read c r = .ok l) :
    s.consume = (.ok ⟨l.kind, String.ofList l.raw, s.pos⟩, s.past l) := by
  unfold Scanner.consume
  rw [hs]
  dsimp only
  rw [h]
  rfl

namespace Lexes

variable {cs : List Char} {ts us : List Token}

/-- A lexeme starts with the character it is read at. -/
theorem exists_read {c : Char} {r : List Char} {l : Lexeme} (h : Lexeme.read c r = .ok l) :
    ∃ t, l.raw = c :: t ∧ r = t ++ l.rest := by
  have happ := Lexeme.raw_append_rest h
  obtain ⟨d, t, hraw⟩ := List.exists_cons_of_ne_nil (Lexeme.raw_ne_nil h)
  rw [hraw, List.cons_append] at happ
  obtain ⟨rfl, hr⟩ := List.cons.inj happ
  exact ⟨t, hraw, hr.symm⟩

/-- If nothing is noted, nothing is wrong with the tokens. -/
theorem of_reads {pos : Position} (h : Scanner.Reads [] pos cs ts) :
    Lexes cs (ts.map Token.bare) := by
  induction h with
  | done => exact .nil
  | @token pos c cs l ts hread hnoted _ ih =>
    obtain ⟨t, hraw, hcs⟩ := exists_read hread
    have hfault : l.fault = none := by
      cases hf : l.fault with
      | none => rfl
      | some e => cases hnoted e hf
    rw [List.map_cons]
    show Lexes (c :: cs) (.of l.kind l.raw :: _)
    rw [hraw]
    rw [hcs] at hread ⊢
    refine .cons ?_ ih
    rw [hread, ← hraw, ← hfault]

/-- What comes first in a text and in its tokens. -/
theorem exists_of_cons {t : Token} (h : Lexes cs (t :: ts)) :
    ∃ c u r, cs = c :: (u ++ r) ∧ t = .of t.kind (c :: u) ∧
      Lexeme.read c (u ++ r) = .ok ⟨t.kind, c :: u, r, none⟩ ∧ Lexes r ts := by
  cases h with
  | cons hread hrest => exact ⟨_, _, _, rfl, rfl, hread, hrest⟩

theorem eq_nil (h : Lexes cs []) : cs = [] := by
  cases h
  rfl

theorem ne_nil {t : Token} (h : Lexes cs (t :: ts)) : cs ≠ [] := by
  cases h
  simp

/-- The texts of the tokens make up the text. -/
theorem rawText_eq (h : Lexes cs ts) : (rawText ts).toList = cs := by
  induction h with
  | nil => rfl
  | cons hread hrest ih => simp [ih]

/-- There is one way to read a text. -/
theorem unique (h : Lexes cs ts) (h' : Lexes cs us) : ts = us := by
  induction h generalizing us with
  | nil =>
    cases us with
    | nil => rfl
    | cons u us => exact absurd rfl h'.ne_nil
  | @cons kind c t r ts hread hrest ih =>
    cases us with
    | nil => cases h'.eq_nil
    | cons u us =>
      obtain ⟨d, v, s, hcs, hu, hread', hrest'⟩ := h'.exists_of_cons
      obtain ⟨rfl, happ⟩ := List.cons.inj hcs
      rw [← happ, hread] at hread'
      obtain ⟨hkind, hraw, rfl, -⟩ := Lexeme.mk.inj (Except.ok.inj hread')
      rw [hu, ← hkind, ← hraw, ih hrest']

/-- Tokens that are read have no places. -/
theorem bare (h : Lexes cs ts) : ts.map Token.bare = ts := by
  induction h with
  | nil => rfl
  | cons hread hrest ih =>
    rw [List.map_cons, ih]
    rfl

/-- A text that can be read is scanned without a failure and a fault. -/
theorem scan (h : Lexes cs ts) (s : Scanner) (hs : s.rest = cs) :
    s.scan.failure = none ∧ s.scan.final.faults = s.faults ∧
      s.scan.tokens.map Token.bare = ts := by
  induction h generalizing s with
  | nil =>
    rw [Scanner.scan_nil hs]
    exact ⟨rfl, rfl, rfl⟩
  | @cons kind c t r ts hread hrest ih =>
    have hconsume := Scanner.consume_of_read hs hread
    obtain ⟨hfailure, hfaults, htokens⟩ := ih (s.past ⟨kind, c :: t, r, none⟩) rfl
    rw [Scanner.scan_ok (by simp [hs]) hconsume]
    refine ⟨hfailure, hfaults.trans ?_, congrArg (Token.of kind (c :: t) :: ·) htokens⟩
    simp [Scanner.past]

/-- What is read as tokens is scanned as these, without a fault. -/
theorem scanSource {text : String} (h : Lexes text.toList ts) :
    (scanSource text).failure = none ∧ (scanSource text).final.faults = [] ∧
      (scanSource text).tokens.map Token.bare = ts :=
  h.scan (.ofSource text.toList) rfl

/-- A source that is scanned without a failure and a fault can be read. -/
theorem of_scanSource {text : String} (hfailure : (Sheet.scanSource text).failure = none)
    (hfaults : (Sheet.scanSource text).final.faults = []) :
    Lexes text.toList ((Sheet.scanSource text).tokens.map Token.bare) := by
  have hreads := reads_scanSource hfailure
  rw [hfaults] at hreads
  exact of_reads hreads

/-- Every token comes from a lexeme that nothing is wrong with. -/
theorem exists_lexeme (h : Lexes cs ts) {t : Token} (ht : t ∈ ts) :
    ∃ c r l, Lexeme.read c r = .ok l ∧ t.kind = l.kind ∧ t.raw.toList = l.raw ∧
      l.fault = none := by
  induction h with
  | nil => cases ht
  | cons hread hrest ih =>
    rcases List.mem_cons.1 ht with rfl | ht
    · exact ⟨_, _, _, hread, rfl, Token.toList_raw_of .., rfl⟩
    · exact ih ht

theorem lexical (h : Lexes cs ts) : Lexical ts where
  marks t ht := by
    obtain ⟨c, r, l, hread, hkind, hraw, -⟩ := h.exists_lexeme ht
    rw [hkind, hraw]
    exact Lexeme.marks_of_read hread
  feeds t ht hspacing := by
    obtain ⟨c, r, l, hread, hkind, hraw, hfault⟩ := h.exists_lexeme ht
    rw [hraw]
    refine ⟨Lexeme.raw_ne_nil hread, Lexeme.feedEscaped_of_read hread (hkind ▸ hspacing) ?_⟩
    rw [hfault]
    nofun

/-- Whatever tokens are read from, the last of them can be read alone. -/
theorem exists_append {ts us : List Token} : ∀ {cs : List Char}, Lexes cs (ts ++ us) →
    ∃ r, cs = (rawText ts).toList ++ r ∧ Lexes r us := by
  induction ts with
  | nil => exact fun {cs} h => ⟨cs, rfl, h⟩
  | cons t ts ih =>
    intro cs h
    obtain ⟨c, u, r, rfl, ht, -, hrest⟩ := exists_of_cons h
    obtain ⟨s, rfl, hs⟩ := ih hrest
    refine ⟨s, ?_, hs⟩
    rw [ht, rawText_cons, String.toList_append, Token.toList_raw_of]
    simp

/-- A text that starts with no white space is read with no white space in front. -/
theorem kind_ne_of_head {t : Token} (h : Lexes cs (t :: ts))
    (hcs : ∀ c ∈ cs.head?, isSpacing c = false) : t.kind ≠ .spacing := by
  obtain ⟨c, u, r, rfl, -, hread, -⟩ := h.exists_of_cons
  intro hspacing
  rw [hspacing] at hread
  have hmarks := Lexeme.marks_of_read hread c List.mem_cons_self
  rw [hcs c rfl] at hmarks
  cases hmarks

/-- No white space is last among tokens whose text ends in none. -/
theorem kind_ne_of_last (h : Lexes cs (ts ++ us))
    (hts : ∀ c ∈ (rawText ts).toList.getLast?, ¬isSpacing c = true) :
    ∀ t, ts.getLast? = some t → t.kind ≠ .spacing := by
  intro t ht hspacing
  obtain ⟨pre, rfl⟩ := List.getLast?_eq_some_iff.1 ht
  obtain ⟨e, q, l, hread, hkind, hraw, -⟩ := h.exists_lexeme (t := t) (by simp)
  have hmarks := Lexeme.marks_of_read hread
  rw [← hkind, hspacing, ← hraw] at hmarks
  obtain ⟨y, d, hd⟩ := (List.eq_nil_or_concat' t.raw.toList).resolve_left
    (hraw ▸ Lexeme.raw_ne_nil hread)
  refine hts d ?_ (hmarks d (by rw [hd]; simp))
  rw [rawText_append, rawText_cons, rawText_nil, String.append_empty, String.toList_append, hd,
    ← List.append_assoc, List.getLast?_concat]
  rfl

/-- A token that was read has a text. -/
theorem ne_nil_of_rawText {r : List Char} {qs ys : List Token}
    (h : Lexes ((rawText qs).toList ++ r) (qs ++ ys)) (hnil : (rawText qs).toList = []) :
    qs = [] := by
  cases qs with
  | nil => rfl
  | cons t qs =>
    obtain ⟨c, u, -, -, ht, -, -⟩ := exists_of_cons h
    rw [ht] at hnil
    simp at hnil

/-- Tokens stay what they are before another text if each of them is read there as it was. -/
theorem exchange_behind {r r' : List Char} {qs ys xs : List Token} (hxs : Lexes r' xs) :
    ∀ {q : List Char}, Lexes (q ++ r) (qs ++ ys) → (rawText qs).toList = q →
    (∀ pre t post c u, qs = pre ++ t :: post → t = .of t.kind (c :: u) →
      Lexes ((rawText post).toList ++ r) (post ++ ys) →
      Lexeme.read c (u ++ ((rawText post).toList ++ r)) =
        .ok ⟨t.kind, c :: u, (rawText post).toList ++ r, none⟩ →
      Lexeme.read c (u ++ ((rawText post).toList ++ r')) =
        .ok ⟨t.kind, c :: u, (rawText post).toList ++ r', none⟩) →
    Lexes (q ++ r') (qs ++ xs) := by
  induction qs with
  | nil =>
    rintro q - rfl -
    exact hxs
  | cons t qs ih =>
    rintro q h rfl hread'
    obtain ⟨c, u, s, hcs, ht, hread, hrest⟩ := exists_of_cons h
    have hq : (rawText (t :: qs)).toList = c :: (u ++ (rawText qs).toList) := by
      rw [ht]
      simp
    obtain rfl : s = (rawText qs).toList ++ r := by
      rw [hq] at hcs
      simpa using hcs.symm
    have hrest' := ih hrest rfl fun pre t' post c' u' hqs ht' hlex =>
      hread' (t :: pre) t' post c' u' (by rw [hqs, List.cons_append]) ht' hlex
    rw [hq, ht, List.cons_append, List.append_assoc, List.cons_append]
    exact .cons (hread' [] t qs c u rfl ht hrest hread) hrest'

/-- White space is last among some tokens. -/
def EndsInSpacing (ts : List Token) : Prop :=
  ∃ t, ts.getLast? = some t ∧ t.kind = .spacing

/-- Verbatim tokens before a barrier stay what they are, whatever closing text takes the place of
the barrier. -/
theorem barrier {b : Char} (hb : IsBarrier b) {p q x y : List Char} {qs ys xs : List Token}
    (h : Lexes (q ++ (p ++ b :: y)) (qs ++ ys)) (hq : (rawText qs).toList = q) (hx : Closes x)
    (hxs : Lexes (p ++ x) xs)
    (hspacing : EndsInSpacing qs → p = [] → ∀ d ∈ x.head?, isSpacing d = false) :
    Lexes (q ++ (p ++ x)) (qs ++ xs) := by
  refine exchange_behind hxs h hq fun pre t post c u hqs _ hlex hread => ?_
  rw [← List.append_assoc (rawText post).toList] at hread ⊢
  refine Lexeme.read_barrier hb hread hx fun hk hnil => ?_
  obtain ⟨hpost, hp⟩ := List.append_eq_nil_iff.1 hnil
  refine hspacing ⟨t, ?_, hk⟩ hp
  rw [hqs, ne_nil_of_rawText hlex hpost, List.getLast?_concat]

end Lexes

/-! ## Tokens that close what is before them -/

/-- Words end before tokens of this class. -/
def Token.Kind.Separates (k : Token.Kind) : Prop :=
  k = .spacing ∨ k = .semicolon ∨ k = .openBrace ∨ k = .closeBrace ∨ k = .colon ∨ k = .comment

/-- A text whose first token ends a word, and is no word itself, closes the word before it. -/
theorem Lexes.closes {x : List Char} {xs : List Token} (h : Lexes x xs)
    (hxs : ∀ t, xs.head? = some t → t.kind.Separates) : Closes x := by
  cases h with
  | nil => exact closes_nil
  | @cons kind d t r ts hread hrest =>
    have hmarks := Lexeme.marks_of_read hread
    have hone : ∀ {e : Char}, d :: t = [e] → isSeparator (some e) = true → e ≠ '(' →
        Closes (d :: (t ++ r)) := by
      intro e he hsep hne
      obtain rfl := (List.cons.inj he).1
      exact closes_of_separator fun c hc => by
        obtain rfl := Option.some.inj hc
        exact ⟨hsep, hne⟩
    rcases hxs _ rfl with hk | hk | hk | hk | hk | hk <;> obtain rfl : kind = _ := hk
    · have hspacing := hmarks d List.mem_cons_self
      refine closes_of_separator fun c hc => ?_
      obtain rfl := Option.some.inj hc
      refine ⟨by rw [isSeparator, hspacing, Bool.or_true, Bool.true_or], ?_⟩
      rintro rfl
      cases hspacing
    · exact hone hmarks rfl (by decide)
    · exact hone hmarks rfl (by decide)
    · exact hone hmarks rfl (by decide)
    · exact hone hmarks rfl (by decide)
    · obtain ⟨body, hbody⟩ := hmarks
      obtain ⟨rfl, rfl⟩ := List.cons.inj hbody
      exact ⟨rfl, opensUrl_of_head (by rintro c ⟨⟩; decide)⟩

end PixelUnit.Sheet
