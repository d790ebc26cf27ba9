import PixelUnit.Proofs.Sheet.Brackets
import PixelUnit.Proofs.Sheet.Lexing

/-!
# Values exchanged

A value that can be read by itself, up to a semicolon (`ReadsAlone`), is read as the same tokens
wherever it ends before a separator. So it can take the place of another one: the tokens before the
colon of the declaration stay what they are, and so do those behind the value (`Lexes.exchange`).
All that is seen of the exchange from the text before it is a colon, at most (`SameToColon`).

The statement ends where it did if the brackets in the new value are closed as those in the old one
were (`Prelude.read_exchange`).
-/

namespace PixelUnit.Sheet

/-! ## Texts that are seen from before -/

/-- Two texts are the same, or they are the same up to a colon. -/
def SameToColon (cs cs' : List Char) : Prop :=
  cs' = cs ∨ ∃ p y y', cs = p ++ ':' :: y ∧ cs' = p ++ ':' :: y'

/-- Texts that are the same up to a colon are so with a text in front of them. -/
theorem SameToColon.append {cs cs' : List Char} (h : SameToColon cs cs') (q : List Char) :
    SameToColon (q ++ cs) (q ++ cs') := by
  rcases h with rfl | ⟨p, y, y', rfl, rfl⟩
  · exact Or.inl rfl
  · exact Or.inr ⟨q ++ p, y, y', by rw [List.append_assoc], by rw [List.append_assoc]⟩

/-- Tokens stay what they are when the text behind them changes behind a colon. -/
theorem Lexes.keep {q r r' : List Char} {qs ys ys' : List Token} (h : Lexes (q ++ r) (qs ++ ys))
    (hq : (rawText qs).toList = q) (hr' : Lexes r' ys') (hsame : SameToColon r r') :
    Lexes (q ++ r') (qs ++ ys') := by
  rcases hsame with rfl | ⟨p, y, y', rfl, rfl⟩
  · obtain ⟨s, happ, hs⟩ := exists_append h
    rw [hq, List.append_cancel_left_eq] at happ
    rw [hr'.unique (happ ▸ hs)]
    exact h
  · have hcolon : Closes (':' :: y') := closes_of_barrier (Or.inl rfl) y'
    refine h.barrier (Or.inl rfl) hq hcolon hr' fun _ _ d hd => ?_
    obtain rfl := Option.some.inj hd
    rfl

/-! ## White space in front -/

/-- A token is white space if it starts with some. -/
theorem Lexeme.isSpacing_of_read {c : Char} {cs : List Char} {l : Lexeme}
    (h : Lexeme.read c cs = .ok l) (hkind : l.kind ≠ .spacing) : isSpacing c = false := by
  refine Bool.eq_false_iff.2 fun hc => hkind ?_
  have hcomment : startsComment (some c) cs.head? = false := by
    refine Bool.eq_false_iff.2 fun hslash => ?_
    obtain rfl : c = '/' := by
      simp only [startsComment, Bool.and_eq_true, beq_iff_eq, Option.some.injEq] at hslash
      exact hslash.1
    cases hc
  rw [Lexeme.read, hcomment, if_neg Bool.false_ne_true, if_pos hc] at h
  cases h
  rfl

/-- White space is read up to the first character that is none. -/
theorem Lexeme.read_spacing {c : Char} {t r : List Char} (h : ∀ d ∈ c :: t, isSpacing d = true)
    (hr : ∀ d ∈ r.head?, isSpacing d = false) :
    Lexeme.read c (t ++ r) = .ok ⟨.spacing, c :: t, r, none⟩ := by
  obtain ⟨hc, ht⟩ := List.forall_mem_cons.1 h
  have hform : Lexeme.Form c (t ++ r) _ := .spacing hc
  rw [Text.takeWhile_run ht hr, Text.dropWhile_run ht hr] at hform
  exact Lexeme.read_of_form hform

/-- A text in front of which no white space stands does not start with any. -/
theorem Lexes.head_isSpacing {cs : List Char} {ts : List Token} (h : Lexes cs ts)
    (hts : ∀ t, ts.head? = some t → t.kind ≠ .spacing) : ∀ d ∈ cs.head?, isSpacing d = false := by
  intro d hd
  cases h with
  | nil => cases hd
  | cons hread _ =>
    obtain rfl := Option.some.inj hd
    exact Lexeme.isSpacing_of_read hread (hts _ rfl)

/-- White space stays what it is before every text without white space in front. -/
theorem Lexes.exchange_spacing {lead ys ys' : List Token} {y y' : List Char} :
    ∀ {L : List Char}, Lexes (L ++ y) (lead ++ ys) → (rawText lead).toList = L →
    (∀ t ∈ lead, t.isSpacing = true) → Lexes y' ys' → (∀ d ∈ y'.head?, isSpacing d = false) →
    Lexes (L ++ y') (lead ++ ys') := by
  induction lead with
  | nil =>
    rintro L - rfl - hy' -
    exact hy'
  | cons t lead ih =>
    rintro L h rfl hlead hy' hhead
    obtain ⟨ht, hlead⟩ := List.forall_mem_cons.1 hlead
    have hkind : t.kind = .spacing := by simpa [Token.isSpacing] using ht
    obtain ⟨c, u, r, hcs, htok, hread, hrest⟩ := exists_of_cons h
    have hL : (rawText (t :: lead)).toList = c :: (u ++ (rawText lead).toList) := by
      rw [htok]
      simp
    obtain rfl : r = (rawText lead).toList ++ y := by
      rw [hL] at hcs
      simpa using hcs.symm
    rw [hkind] at hread
    have hspaces : ∀ d ∈ c :: u, isSpacing d = true := Lexeme.marks_of_read hread
    have hbehind : ∀ d ∈ ((rawText lead).toList ++ y').head?, isSpacing d = false := by
      have hahead := (Lexeme.ahead_of_read hread).spacing rfl
      cases lead with
      | nil => exact hhead
      | cons s lead =>
        obtain ⟨d, v, q, -, hs, -⟩ := exists_of_cons hrest
        rw [hs] at hahead ⊢
        simpa using hahead
    have hread' := Lexeme.read_spacing hspaces hbehind
    rw [hL, htok, List.cons_append, List.append_assoc, List.cons_append, hkind]
    exact .cons hread' (ih hrest rfl hlead hy' hhead)

/-! ## Values -/

/-- A text is read as tokens by itself, up to a semicolon, and white space stands neither in front
of it nor behind it. -/
structure ReadsAlone (cs : List Char) (ts : List Token) : Prop where
  lexes : Lexes (cs ++ [';']) (ts ++ [.of .semicolon [';']])
  head : ∀ t, ts.head? = some t → t.kind ≠ .spacing
  last : ∀ t, ts.getLast? = some t → t.kind ≠ .spacing

namespace ReadsAlone

variable {cs x : List Char} {ts us xs : List Token}

theorem rawText_eq (h : ReadsAlone cs ts) : (rawText ts).toList = cs := by
  have hraw := h.lexes.rawText_eq
  simpa using hraw

/-- The value is read the same before whatever ends it. -/
theorem lexes_append (h : ReadsAlone cs ts) (hx : Closes x) (hxs : Lexes x xs) :
    Lexes (cs ++ x) (ts ++ xs) := by
  have hlexes := h.lexes.barrier (p := []) (Or.inr (Or.inl rfl)) h.rawText_eq hx hxs
    fun hlast _ => by
    obtain ⟨t, ht, hk⟩ := hlast
    exact absurd hk (h.last t ht)
  simpa using hlexes

/-- Before whatever ends it, no other tokens are read. -/
theorem unique (h : ReadsAlone cs ts) (hx : Closes x) (hxs : Lexes x xs)
    (hus : Lexes (cs ++ x) (us ++ xs)) : us = ts :=
  List.append_cancel_right (hus.unique (h.lexes_append hx hxs))

end ReadsAlone

/-- The tokens of a text that can be read by itself. -/
def tokensAlone? (text : String) : Option (List Token) :=
  let scan := scanSource (text ++ ";")
  let ts := scan.tokens.map Token.bare
  if scan.failure.isNone ∧ scan.final.faults.isEmpty ∧ ts.getLast? = some (.of .semicolon [';']) ∧
      (∀ t ∈ ts.dropLast.head?, t.kind ≠ .spacing) ∧ (∀ t ∈ ts.dropLast.getLast?, t.kind ≠ .spacing)
  then some ts.dropLast else none

/-- Whether a text can be read by itself can be computed. -/
theorem tokensAlone?_eq_some_iff {text : String} {ts : List Token} :
    tokensAlone? text = some ts ↔ ReadsAlone text.toList ts := by
  have htext : (text ++ ";").toList = text.toList ++ [';'] := String.toList_append
  unfold tokensAlone?
  constructor
  · intro h
    dsimp only at h
    split at h
    · next hscan =>
      obtain ⟨hfailure, hfaults, hlast, hhead, hend⟩ := hscan
      obtain rfl := Option.some.inj h
      obtain ⟨us, hus⟩ := List.getLast?_eq_some_iff.1 hlast
      have hlexes := Lexes.of_scanSource (Option.isNone_iff_eq_none.1 hfailure)
        (List.isEmpty_iff.1 hfaults)
      rw [hus, htext] at hlexes
      rw [hus, List.dropLast_concat] at hhead hend ⊢
      exact ⟨hlexes, hhead, hend⟩
    · cases h
  · intro h
    have hlexes := h.lexes
    rw [← htext] at hlexes
    obtain ⟨hfailure, hfaults, htokens⟩ := hlexes.scanSource
    dsimp only
    rw [htokens, List.dropLast_concat, hfailure, hfaults, List.getLast?_concat]
    exact if_pos ⟨rfl, rfl, rfl, h.head, h.last⟩

/-- Other text takes the place of what is behind a colon and the white space there. -/
theorem Lexes.exchange_colon {cs y : List Char} {front lead tail ys : List Token} {colon : Token}
    (h : Lexes cs (front ++ colon :: (lead ++ tail))) (hcolon : colon.kind = .colon)
    (hlead : ∀ t ∈ lead, t.isSpacing = true) (hy : Lexes y ys)
    (hhead : ∀ d ∈ y.head?, isSpacing d = false) :
    ∃ cs', Lexes cs' (front ++ colon :: (lead ++ ys)) ∧ SameToColon cs cs' := by
  obtain ⟨r, rfl, hr⟩ := exists_append h
  obtain ⟨c, u, s, rfl, htok, hread, hs⟩ := exists_of_cons hr
  rw [hcolon] at hread
  obtain ⟨rfl, rfl⟩ : c = ':' ∧ u = [] := by
    have hmarks := Lexeme.marks_of_read hread
    exact List.cons.inj hmarks
  obtain ⟨x, rfl, -⟩ := @exists_append lead _ _ hs
  have hspaced := hs.exchange_spacing rfl hlead hy hhead
  have hpunctuation : ∀ z : List Char, Lexeme.read ':' z = .ok ⟨.colon, [':'], z, none⟩ :=
    fun z => rfl
  have hbehind : Lexes (':' :: ((rawText lead).toList ++ y)) (colon :: (lead ++ ys)) := by
    rw [htok, hcolon]
    exact .cons (t := []) (hpunctuation _) hspaced
  have hsame : SameToColon (':' :: ([] ++ ((rawText lead).toList ++ x)))
      (':' :: ((rawText lead).toList ++ y)) := Or.inr ⟨[], _, _, rfl, rfl⟩
  exact ⟨_, h.keep rfl hbehind hsame, hsame.append _⟩

/-- Another value takes the place of one behind a colon, with other text behind it. -/
theorem Lexes.exchange {cs new tl' : List Char} {front lead us vs tail tail' : List Token}
    {colon : Token} (h : Lexes cs (front ++ colon :: (lead ++ (us ++ tail))))
    (hcolon : colon.kind = .colon) (hlead : ∀ t ∈ lead, t.isSpacing = true)
    (hnew : ReadsAlone new vs) (hne : vs ≠ []) (htl : Lexes tl' tail') (hcloses : Closes tl') :
    ∃ cs', Lexes cs' (front ++ colon :: (lead ++ (vs ++ tail'))) ∧ SameToColon cs cs' := by
  have hvalue := hnew.lexes_append hcloses htl
  refine h.exchange_colon hcolon hlead hvalue (hvalue.head_isSpacing fun t ht => hnew.head t ?_)
  obtain ⟨v, vs, rfl⟩ := List.exists_cons_of_ne_nil hne
  exact ht

/-! ## Statements -/

namespace Prelude

/-- A statement that is read without a fault leaves nothing open. -/
theorem unclosed_eq_false {ts : List Token} (h : (read [] ts).fault? = none) :
    (read [] ts).unclosed = false := by
  refine Bool.eq_false_iff.2 fun hunclosed => ?_
  rw [fault?, if_pos hunclosed, Option.map_eq_none_iff, List.head?_eq_none_iff] at h
  -- a statement without tokens ends at once, with no bracket open
  cases ts with
  | nil => cases hunclosed
  | cons t r =>
    rw [read] at h hunclosed
    simp only [List.head?_nil, List.isEmpty_nil, Bool.true_and] at h hunclosed
    split_ifs at h hunclosed
    · cases hunclosed
    all_goals cases h

/-- Where nothing ends a statement, its container ends. -/
theorem closesNext_rest {ts : List Token} (hts : ∀ t ∈ ts, t.kind ≠ .ending)
    (hstop : (read [] ts).stop = none) : ClosesNext (read [] ts).rest := by
  intro t ht
  rcases stop_cases [] ts with ⟨u, hu, -⟩ | ⟨u, hu, -⟩ | ⟨-, hrest⟩
  · rw [hstop] at hu
    cases hu
  · rw [hstop] at hu
    cases hu
  · refine (hrest t ht).resolve_right (hts t ?_)
    rw [← taken_append_rest [] ts]
    exact List.mem_append_right _ (List.mem_of_mem_head? ht)

/-- Other tokens that leave no bracket open end where the old ones did. If nothing ended those, the
container has to end there. -/
theorem read_exchange {ts us r : List Token} (hus : ∀ t ∈ us, t.kind ≠ .ending)
    (hpass : passes [] (us.map Token.kind) = some [])
    (hr : (read [] ts).stop = none → ClosesNext r) :
    read [] (us ++ ((read [] ts).stop.toList ++ r)) = ⟨us, (read [] ts).stop, r, false⟩ := by
  rcases stop_cases [] ts with ⟨u, hu, hkind⟩ | ⟨u, hu, hkind⟩ | ⟨hu, -⟩
  · rw [hu]
    exact read_stop hus hpass (Or.inl hkind)
  · rw [hu]
    exact read_stop hus hpass (Or.inr hkind)
  · rw [hu]
    exact read_before hus hpass (hr hu)

/-- A statement is read again before all other tokens if something ends it, else before the end of
its container. -/
theorem read_again {ts r : List Token} (hts : ∀ t ∈ ts, t.kind ≠ .ending)
    (hclosed : (read [] ts).unclosed = false) (hr : (read [] ts).stop = none → ClosesNext r) :
    read [] ((read [] ts).taken ++ r) = { read [] ts with rest := r } := by
  obtain ⟨left, hpass, hleft⟩ := passes_tokens [] ts
  rw [hleft.1 hclosed] at hpass
  have hus : ∀ t ∈ (read [] ts).tokens, t.kind ≠ .ending := by
    refine fun t ht => hts t ?_
    rw [← taken_append_rest [] ts, taken, List.append_assoc]
    exact List.mem_append_left _ ht
  rw [taken, List.append_assoc, read_exchange hus hpass hr, ← hclosed]

end Prelude

end PixelUnit.Sheet
