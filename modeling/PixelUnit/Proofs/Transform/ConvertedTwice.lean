import PixelUnit.Proofs.Sheet.Words
import PixelUnit.Proofs.Transform.Protected

/-!
# Values converted twice

What the conversion makes of a value has nothing in it to convert (`convert_convert`), as long as
the custom property holds no digit, quote or parenthesis and there are no fallbacks. A second pass
reads what the first one left, piece by piece, and the calls that the first one put in are plain
characters to it.

There is one place where it goes another way (`resumes_behind_call`): an address without an end is
closed by the first call behind it. All that this shield holds was left alone or put in by the first
pass, and behind it the second pass is in step again.
-/

namespace PixelUnit.Lengths

open Regex Text

/-! ## Shields -/

/-- A shield stays open if the closing character comes at once, or not at all. -/
theorem through?_eq_none_iff {c : Char} {cs : List Char} :
    through? c cs = none ↔ cs.head? = some c ∨ c ∉ cs := by
  constructor
  · refine fun h => or_iff_not_imp_left.2 fun hhead hmem => ?_
    obtain ⟨a, b, rfl, ha⟩ := List.eq_append_cons_of_mem hmem
    have hne : a ≠ [] := by
      rintro rfl
      exact hhead rfl
    rw [through?_append hne ha] at h
    cases h
  · refine fun h => Option.eq_none_iff_forall_ne_some.2 fun ⟨t, r⟩ hsome => ?_
    obtain ⟨s, hne, hs, rfl, rfl⟩ := through?_eq_some hsome
    obtain ⟨d, s, rfl⟩ := List.exists_cons_of_ne_nil hne
    rcases h with h | h
    · exact hs (Option.some.inj h ▸ List.mem_cons_self)
    · exact h (by simp)

theorem exists_of_isUrlName {name : List Char} (h : Sheet.isUrlName name = true) :
    ∃ u v w, name = [u, v, w] ∧ u.toLower = 'u' ∧ v.toLower = 'r' ∧ w.toLower = 'l' := by
  have hlength := Sheet.isUrlName_length h
  match name, hlength with
  | [u, v, w], _ => exact ⟨u, v, w, rfl, by simpa [Sheet.isUrlName] using h⟩

theorem opening?_url {u v w : Char} (h : Sheet.isUrlName [u, v, w] = true) (r : List Char) :
    opening? (u :: v :: w :: '(' :: r) = some ([u, v, w, '('], ')', r) := by
  have hu : u.toLower = 'u' := by
    obtain ⟨_, _, _, heq, hu, -⟩ := exists_of_isUrlName h
    rwa [(List.cons.inj heq).1]
  rw [opening?, if_pos h]
  · rintro rfl
    exact absurd hu (by decide)
  · rintro rfl
    exact absurd hu (by decide)

/-- What opens a shield opens it before every text. -/
theorem opening?_congr {o r : List Char} {c : Char} (h : opening? (o ++ r) = some (o, c, r))
    (r' : List Char) : opening? (o ++ r') = some (o, c, r') := by
  obtain ⟨-, ⟨rfl, rfl⟩ | ⟨rfl, rfl⟩ | ⟨name, hname, rfl, rfl⟩⟩ := opening?_eq_some h
  · rfl
  · rfl
  · obtain ⟨u, v, w, rfl, -⟩ := exists_of_isUrlName hname
    exact opening?_url hname r'

/-- A shield is one before every text. -/
theorem shield?_congr {t r : List Char} (h : shield? (t ++ r) = some (t, r)) (r' : List Char) :
    shield? (t ++ r') = some (t, r') := by
  obtain ⟨o, c, s, ho, hne, hs, rfl⟩ := shield?_eq_some h
  have happ : ∀ x, o ++ s ++ [c] ++ x = o ++ (s ++ c :: x) := by simp
  rw [happ] at ho ⊢
  rw [List.append_assoc, List.singleton_append] at ho
  rw [shield?_of_opening (opening?_congr ho _), through?_append hne hs]
  simp

/-! ## Where nothing is taken -/

/-- A shield starts with a quote or a letter of the name of an address. -/
theorem opening?_eq_none_of_head {c : Char} (hquote : Sheet.isQuote c = false)
    (hurl : c.toLower ≠ 'u') (r : List Char) : opening? (c :: r) = none := by
  by_contra hne
  obtain ⟨⟨o, q, s⟩, h⟩ := Option.ne_none_iff_exists'.1 hne
  obtain ⟨happ, ⟨rfl, -⟩ | ⟨rfl, -⟩ | ⟨name, hname, rfl, -⟩⟩ := opening?_eq_some h
  · rw [(List.cons.inj happ).1] at hquote
    cases hquote
  · rw [(List.cons.inj happ).1] at hquote
    cases hquote
  · obtain ⟨u, v, w, rfl, hu, -⟩ := exists_of_isUrlName hname
    exact hurl ((List.cons.inj happ).1 ▸ hu)

/-- Whether a character is no parenthesis. -/
def noParen (c : Char) : Bool :=
  c != '(' && c != ')'

/-- No address opens where a parenthesis is closed before one is opened. -/
theorem opening?_eq_none_of_closed {k : List Char} (hquote : ∀ c ∈ k, Sheet.isQuote c = false)
    (hparen : ∀ c ∈ k, noParen c = true) (z : List Char) : opening? (k ++ ')' :: z) = none := by
  by_contra hne
  obtain ⟨⟨o, q, s⟩, h⟩ := Option.ne_none_iff_exists'.1 hne
  have hhead : ∀ c, Sheet.isQuote c = true → k ++ ')' :: z ≠ c :: s := by
    intro c hc happ
    cases k with
    | nil =>
      rw [← (List.cons.inj happ).1] at hc
      cases hc
    | cons d k =>
      rw [← (List.cons.inj happ).1, hquote d List.mem_cons_self] at hc
      cases hc
  obtain ⟨happ, ⟨rfl, -⟩ | ⟨rfl, -⟩ | ⟨name, hname, rfl, -⟩⟩ := opening?_eq_some h
  · exact hhead _ rfl happ
  · exact hhead _ rfl happ
  · have hplain : ∀ c ∈ name, noParen c = true := by
      obtain ⟨u, v, w, rfl, hu, hv, hw⟩ := exists_of_isUrlName hname
      have hletter : ∀ c l : Char, c.toLower = l → l ≠ '(' → l ≠ ')' → noParen c = true := by
        intro c l hc hopen hclose
        have hcase : c ≠ '(' ∧ c ≠ ')' :=
          ⟨fun h => hopen (by rw [← hc, h]; rfl), fun h => hclose (by rw [← hc, h]; rfl)⟩
        simp [noParen, hcase.1, hcase.2]
      simp [hletter u _ hu, hletter v _ hv, hletter w _ hw]
    have hopen : ∀ c ∈ ('(' :: s).head?, noParen c = false := by simp [noParen]
    have hclose : ∀ c ∈ (')' :: z).head?, noParen c = false := by simp [noParen]
    -- the first parenthesis would be of both kinds
    have hfirst := congrArg (List.dropWhile noParen) happ
    rw [List.append_assoc, List.singleton_append, dropWhile_run hparen hclose,
      dropWhile_run hplain hopen] at hfirst
    exact absurd (List.cons.inj hfirst).1 (by decide)

/-- A length starts with a character of a number. -/
theorem length?_eq_none_of_head {c : Char} (hnumber : inNumber c = false) (r : List Char) :
    length? (c :: r) = none := by
  by_contra hne
  obtain ⟨⟨n, u, s⟩, h⟩ := Option.ne_none_iff_exists'.1 hne
  obtain ⟨happ, hn, -⟩ := length?_eq_some h
  obtain ⟨d, n', rfl⟩ := List.exists_cons_of_ne_nil hn.ne_nil
  rw [(List.cons.inj happ).1, hn.all d List.mem_cons_self] at hnumber
  cases hnumber

/-- A point before no digit starts no length. -/
theorem length?_eq_none_of_point {r : List Char} (h : ∀ c ∈ r.head?, c.isDigit = false) :
    length? ('.' :: r) = none := by
  have hdrop : ('.' :: r).dropWhile Char.isDigit = '.' :: r := rfl
  have htake : r.takeWhile Char.isDigit = [] :=
    (takeWhile_run (fun _ hd => absurd hd List.not_mem_nil) h : ([] ++ r).takeWhile _ = [])
  rw [length?, number?_of_point hdrop, if_pos htake]
  rfl

/-- What can stand in a number is no length before what is no unit. -/
theorem length?_eq_none_of_stop {k r : List Char} {c : Char} (hk : ∀ d ∈ k, inNumber d = true)
    (hnumber : inNumber c = false) (hunit : c.toLower ≠ 'p') : length? (k ++ c :: r) = none := by
  by_contra hne
  obtain ⟨⟨n, u, s⟩, h⟩ := Option.ne_none_iff_exists'.1 hne
  obtain ⟨happ, hn, p, x, rfl, hu⟩ := length?_eq_some h
  have hstop : ∀ d ∈ (c :: r).head?, inNumber d = false := fun d hd =>
    Option.some.inj hd ▸ hnumber
  have hstop' : ∀ d ∈ (p :: x :: s).head?, inNumber d = false := fun d hd =>
    Option.some.inj hd ▸ (not_inNumber_of_isUnit hu).1
  -- the unit stands where the number ends
  have hbehind := congrArg (List.dropWhile inNumber) happ
  rw [List.append_assoc, dropWhile_run hk hstop, List.cons_append, List.singleton_append,
    dropWhile_run hn.all hstop'] at hbehind
  rw [(List.cons.inj hbehind).1] at hunit
  exact hunit (beq_iff_eq.1 (Bool.and_eq_true_iff.1 hu).1)

theorem front?_of_shield {cs t r : List Char} (h : shield? cs = some (t, r)) :
    front? cs = some (.shield t, r) := by
  rw [front?, h]
  rfl

theorem shield?_eq_none_of_front? {cs : List Char} (h : front? cs = none) : shield? cs = none := by
  refine Option.eq_none_iff_forall_ne_some.2 fun ⟨t, r⟩ hsome => ?_
  rw [front?_of_shield hsome] at h
  cases h

theorem front?_eq_none {cs : List Char} (hopening : opening? cs = none)
    (hlength : length? cs = none) : front? cs = none := by
  rw [front?, shield?, hopening, hlength]
  rfl

theorem front?_eq_none_of_head {c : Char} (hquote : Sheet.isQuote c = false)
    (hurl : c.toLower ≠ 'u') (hnumber : inNumber c = false) (r : List Char) :
    front? (c :: r) = none :=
  front?_eq_none (opening?_eq_none_of_head hquote hurl r) (length?_eq_none_of_head hnumber r)

/-! ## Texts that are converted -/

/-- A text with its lengths replaced by multiples without fallbacks. -/
def converted (property : String) (text : List Char) : List Char :=
  (pieces text).flatMap (Piece.converted property .none)

/-- What stands where a length was. -/
def call (property : String) (n : List Char) : List Char :=
  "calc(".toList ++ (n ++ ("*var(".toList ++ (property.toList ++ "))".toList)))

theorem piece_converted_length (property : String) (n u : List Char) :
    (Piece.length n u).converted property .none = call property n := by
  simp [Piece.converted, Fallback.make, multiple, call]

variable {property : String} {cs r s y : List Char} {c : Char}

theorem toList_convert (property value : String) :
    (convert property .none value).toList = converted property value.toList :=
  convert_eq_flatMap_pieces property .none value

theorem converted_nil : converted property [] = [] := by
  rw [converted, pieces, List.flatMap_nil]

theorem converted_of_none (h : front? (c :: cs) = none) :
    converted property (c :: cs) = c :: converted property cs := by
  rw [converted, pieces_of_none h, List.flatMap_cons, converted]
  rfl

theorem converted_of_shield (h : front? cs = some (.shield s, r)) :
    converted property cs = s ++ converted property r := by
  rw [converted, pieces_of_some h, List.flatMap_cons, converted]
  rfl

theorem converted_of_length {n u : List Char} (h : front? cs = some (.length n u, r)) :
    converted property cs = call property n ++ converted property r := by
  rw [converted, pieces_of_some h, List.flatMap_cons, converted, piece_converted_length]

/-- A property that a call can hold without a second pass taking anything in it. -/
def IsHarmless (property : String) : Prop :=
  ∀ c ∈ property.toList, c.isDigit = false ∧ Sheet.isQuote c = false ∧ c ≠ '(' ∧ c ≠ ')'

/-! ## Characters that start nothing -/

/-- Whether neither a shield nor a call starts with a character. -/
def StartsNothing (c : Char) : Prop :=
  c.toLower ∉ ['"', '\'', 'u', 'c']

instance (c : Char) : Decidable (StartsNothing c) :=
  inferInstanceAs (Decidable (c.toLower ∉ ['"', '\'', 'u', 'c']))

theorem StartsNothing.isQuote (h : StartsNothing c) : Sheet.isQuote c = false := by
  refine Bool.eq_false_iff.2 fun hquote => ?_
  rcases Sheet.isQuote_iff.1 hquote with rfl | rfl <;> exact absurd h (by decide)

theorem StartsNothing.toLower_ne (h : StartsNothing c) : c.toLower ≠ 'u' :=
  fun hu => h (by simp [hu])

theorem StartsNothing.ne (h : StartsNothing c) : c ≠ 'c' := by
  rintro rfl
  exact absurd h (by decide)

theorem startsNothing_of_toLower {l : Char} (hc : c.toLower = l)
    (hl : l ∉ ['"', '\'', 'u', 'c']) : StartsNothing c := by
  rwa [StartsNothing, hc]

theorem startsNothing_of_inNumber (h : inNumber c = true) : StartsNothing c := by
  refine startsNothing_of_toLower (toLower_of_inNumber h) fun hmem => ?_
  simp only [List.mem_cons, List.not_mem_nil, or_false] at hmem
  rcases hmem with rfl | rfl | rfl | rfl <;> exact absurd h (by decide)

theorem startsNothing_of_isLength {a : List Char} (h : IsLength a) :
    ∀ c ∈ a, StartsNothing c := by
  obtain ⟨n, p, x, rfl, hn, hunit⟩ := h
  obtain ⟨hp, hx⟩ := Bool.and_eq_true_iff.1 hunit
  intro c hc
  rcases List.mem_append.1 hc with hc | hc
  · exact startsNothing_of_inNumber (hn.all c hc)
  rcases List.mem_cons.1 hc with rfl | hc
  · exact startsNothing_of_toLower (beq_iff_eq.1 hp) (by decide)
  · exact startsNothing_of_toLower (List.mem_singleton.1 hc ▸ beq_iff_eq.1 hx) (by decide)

/-! ## Calls are left alone -/

/-- A text in which nothing starts is converted as itself. -/
theorem converted_append_of_none {t : List Char}
    (h : ∀ c b, c :: b <:+ t → front? (c :: b ++ y) = none) :
    converted property (t ++ y) = t ++ converted property y := by
  induction t with
  | nil => rfl
  | cons c t ih =>
    have hhead : front? (c :: (t ++ y)) = none := h c t (List.suffix_refl _)
    rw [List.cons_append, converted_of_none hhead,
      ih fun d b hb => h d b (hb.trans (List.suffix_cons c t)), List.cons_append]

/-- Whether no shield and no length starts with a character, whatever is behind it. -/
def isInert (c : Char) : Bool :=
  !Sheet.isQuote c && c.toLower != 'u' && !inNumber c

/-- A text of inert characters is converted as itself, whatever follows. -/
theorem converted_append_of_heads {t : List Char} (h : t.all isInert = true) (y : List Char) :
    converted property (t ++ y) = t ++ converted property y := by
  refine converted_append_of_none fun c b hb => ?_
  have hinert := List.all_eq_true.1 h c (hb.subset List.mem_cons_self)
  simp only [isInert, Bool.and_eq_true, Bool.not_eq_true', bne_iff_ne] at hinert
  exact front?_eq_none_of_head hinert.1.1 hinert.1.2 hinert.2 _

/-- The number of a call is no length any more. -/
theorem converted_append_of_number {n : List Char} (hn : ∀ c ∈ n, inNumber c = true) :
    converted property (n ++ '*' :: y) = n ++ converted property ('*' :: y) := by
  refine converted_append_of_none fun c b hb => ?_
  have hc := startsNothing_of_inNumber (hn c (hb.subset List.mem_cons_self))
  refine front?_eq_none (opening?_eq_none_of_head hc.isQuote hc.toLower_ne _) ?_
  exact length?_eq_none_of_stop (fun d hd => hn d (hb.subset hd)) (by decide) (by decide)

/-- A harmless property is converted as itself in front of a parenthesis. -/
theorem converted_append_of_property (h : IsHarmless property) :
    converted property (property.toList ++ ')' :: y) =
      property.toList ++ converted property (')' :: y) := by
  refine converted_append_of_none fun c b hb => ?_
  have hall : ∀ d ∈ c :: b, d.isDigit = false ∧ Sheet.isQuote d = false ∧ noParen d = true := by
    intro d hd
    obtain ⟨hdigit, hquote, hopen, hclose⟩ := h d (hb.subset hd)
    exact ⟨hdigit, hquote, by simp [noParen, hopen, hclose]⟩
  refine front?_eq_none (opening?_eq_none_of_closed (fun d hd => (hall d hd).2.1)
    (fun d hd => (hall d hd).2.2) y) ?_
  by_cases hpoint : c = '.'
  · subst hpoint
    refine length?_eq_none_of_point fun d hd => ?_
    cases b with
    | nil => exact Option.some.inj hd ▸ rfl
    | cons e b => exact Option.some.inj hd ▸ (hall e (by simp)).1
  · refine length?_eq_none_of_head ?_ _
    simp [inNumber, hpoint, (hall c List.mem_cons_self).1]

/-- A second pass takes nothing in what the first one put in. -/
theorem converted_call_append (h : IsHarmless property) {n : List Char} (hn : IsNumber n)
    (y : List Char) :
    converted property (call property n ++ y) = call property n ++ converted property y := by
  have hcalc : ∀ z, converted property ("calc(".toList ++ z) =
      "calc(".toList ++ converted property z := converted_append_of_heads (by decide)
  have hvar : ∀ z, converted property ("*var(".toList ++ z) =
      "*var(".toList ++ converted property z := converted_append_of_heads (by decide)
  have hclose : ∀ z, converted property ("))".toList ++ z) =
      "))".toList ++ converted property z := converted_append_of_heads (by decide)
  calc converted property (call property n ++ y)
      = "calc(".toList ++ converted property
          (n ++ ("*var(".toList ++ (property.toList ++ ("))".toList ++ y)))) := by
        rw [← hcalc]
        simp only [call, List.append_assoc]
    _ = "calc(".toList ++ (n ++ converted property
          ("*var(".toList ++ (property.toList ++ ("))".toList ++ y)))) := by
        exact congrArg _ (converted_append_of_number hn.all)
    _ = "calc(".toList ++ (n ++ ("*var(".toList ++ (property.toList ++
          ("))".toList ++ converted property y)))) := by
        rw [hvar, ← hclose]
        exact congrArg (fun x => _ ++ (_ ++ (_ ++ x))) (converted_append_of_property h)
    _ = call property n ++ converted property y := by
        simp only [call, List.append_assoc]

/-! ## What was there before -/

theorem not_shield_of_head (hquote : Sheet.isQuote c = false) (hurl : c.toLower ≠ 'u')
    (r : List Char) : shield? (c :: r) = none := by
  rw [shield?, opening?_eq_none_of_head hquote hurl]
  rfl

/-- A character that starts neither a shield nor a call was there before. -/
theorem exists_of_converted_eq_cons (h : converted property cs = c :: y) (hc : StartsNothing c) :
    ∃ r, cs = c :: r ∧ y = converted property r := by
  cases cs with
  | nil =>
    rw [converted_nil] at h
    cases h
  | cons d cs =>
    cases hfront : front? (d :: cs) with
    | none =>
      rw [converted_of_none hfront] at h
      obtain ⟨rfl, rfl⟩ := List.cons.inj h
      exact ⟨cs, rfl, rfl⟩
    | some q =>
      obtain ⟨p, r⟩ := q
      rcases front?_eq_some hfront with ⟨t, rfl, hshield⟩ | ⟨n, c', e, rfl, -, -, -⟩
      · rw [converted_of_shield hfront] at h
        obtain ⟨happ, hne⟩ := front?_append hfront
        obtain ⟨e, t, rfl⟩ := List.exists_cons_of_ne_nil hne
        obtain rfl : e = c := (List.cons.inj h).1
        obtain rfl : d = e := (List.cons.inj happ).1
        rw [not_shield_of_head hc.isQuote hc.toLower_ne] at hshield
        cases hshield
      · rw [converted_of_length hfront] at h
        exact absurd (List.cons.inj h).1.symm hc.ne

/-- Where nothing is converted, a stretch of the result was there before. -/
theorem exists_of_converted_eq_append {a : List Char} (h : converted property cs = a ++ y)
    (ha : ∀ c ∈ a, StartsNothing c) :
    ∃ r, cs = a ++ r ∧ y = converted property r := by
  induction a generalizing cs with
  | nil => exact ⟨cs, rfl, h.symm⟩
  | cons c a ih =>
    obtain ⟨r, rfl, hr⟩ := exists_of_converted_eq_cons h (ha c List.mem_cons_self)
    obtain ⟨r', rfl, rfl⟩ := ih hr.symm fun d hd => ha d (List.mem_cons_of_mem c hd)
    exact ⟨r', rfl, rfl⟩

/-- A character that starts no number stays in front. -/
theorem exists_converted_cons (hnumber : inNumber c = false) (cs : List Char) :
    ∃ y, converted property (c :: cs) = c :: y := by
  cases hfront : front? (c :: cs) with
  | none => exact ⟨_, converted_of_none hfront⟩
  | some q =>
    obtain ⟨p, r⟩ := q
    obtain ⟨happ, hne⟩ := front?_append hfront
    rcases front?_eq_some hfront with ⟨t, rfl, hshield⟩ | ⟨n, c', d, rfl, -, hn, -⟩
    · obtain ⟨e, t, rfl⟩ := List.exists_cons_of_ne_nil hne
      exact ⟨t ++ converted property r, by
        rw [converted_of_shield hfront, (List.cons.inj happ).1]
        rfl⟩
    · obtain ⟨e, n, rfl⟩ := List.exists_cons_of_ne_nil hn.ne_nil
      have hc : c = e := (List.cons.inj happ).1
      rw [hc, hn.all e List.mem_cons_self] at hnumber
      cases hnumber

/-- A call with a harmless property holds no quote. -/
theorem isQuote_of_mem_call (h : IsHarmless property) {n : List Char} (hn : IsNumber n)
    (hc : c ∈ call property n) : Sheet.isQuote c = false := by
  have hfixed {t : List Char} (ht : t.all isInert = true) (hmem : c ∈ t) :
      Sheet.isQuote c = false := by
    have hinert := List.all_eq_true.1 ht c hmem
    simp only [isInert, Bool.and_eq_true, Bool.not_eq_true'] at hinert
    exact hinert.1.1
  simp only [call, List.mem_append] at hc
  rcases hc with hc | hc | hc | hc | hc
  · exact hfixed (by decide) hc
  · exact (startsNothing_of_inNumber (hn.all c hc)).isQuote
  · exact hfixed (by decide) hc
  · exact (h c hc).2.1
  · exact hfixed (by decide) hc

/-- The conversion puts in no quotes. -/
theorem not_mem_converted (h : IsHarmless property) (hquote : Sheet.isQuote c = true)
    (hc : c ∉ cs) : c ∉ converted property cs := by
  fun_induction pieces cs with
  | case1 => rwa [converted_nil]
  | case2 d r p s hfront _ ih =>
    obtain ⟨happ, -⟩ := front?_append hfront
    rw [happ, List.mem_append, not_or] at hc
    rcases front?_eq_some hfront with ⟨t, rfl, -⟩ | ⟨n, c', e, rfl, -, hn, -⟩
    · rw [converted_of_shield hfront, List.mem_append, not_or]
      exact ⟨hc.1, ih hc.2⟩
    · rw [converted_of_length hfront, List.mem_append, not_or]
      refine ⟨fun hmem => ?_, ih hc.2⟩
      rw [isQuote_of_mem_call h hn hmem] at hquote
      cases hquote
  | case3 d r hfront ih =>
    rw [List.mem_cons, not_or] at hc
    rw [converted_of_none hfront, List.mem_cons, not_or]
    exact ⟨hc.1, ih hc.2⟩

theorem exists_of_append_eq {t z : List Char} (ht : c ∉ t) (h : t ++ z = s ++ c :: y) :
    ∃ x, s = t ++ x ∧ z = x ++ c :: y := by
  rcases List.append_eq_append_iff.1 h with ⟨x, rfl, hx⟩ | ⟨x, rfl, hx⟩
  · exact ⟨x, rfl, hx⟩
  · cases x with
    | nil => exact ⟨[], by simp, hx.symm⟩
    | cons d x => exact absurd (by rw [(List.cons.inj hx).1]; simp) ht

/-- A call is closed at its first closing parenthesis but one. -/
theorem exists_call_eq (h : IsHarmless property) {n : List Char} (hn : IsNumber n) :
    ∃ t, call property n = t ++ "))".toList ∧ ')' ∉ t := by
  refine ⟨"calc(".toList ++ (n ++ ("*var(".toList ++ property.toList)), ?_, ?_⟩
  · simp only [call, List.append_assoc]
  · have hfixed : ')' ∉ "calc(".toList ∧ ')' ∉ "*var(".toList := by decide
    simp only [List.mem_append, not_or]
    have hnumber : ')' ∉ n := fun hmem => absurd (hn.all _ hmem) (by decide)
    exact ⟨hfixed.1, hnumber, hfixed.2, fun hmem => (h _ hmem).2.2.2 rfl⟩

/-- Where no parenthesis was closed before, the first that is closed is one of a call, and another
one is closed behind it. -/
theorem exists_behind_paren (h : IsHarmless property) (hcs : ')' ∉ cs) (hs : ')' ∉ s)
    (happ : converted property cs = s ++ ')' :: y) :
    ∃ b, y = ')' :: converted property b ∧ b.length ≤ cs.length := by
  fun_induction pieces cs generalizing s with
  | case1 =>
    rw [converted_nil] at happ
    simp at happ
  | case2 d r p rest hfront hlt ih =>
    have hrest : ')' ∉ p.text ∧ ')' ∉ rest := by
      rwa [(front?_append hfront).1, List.mem_append, not_or] at hcs
    rcases front?_eq_some hfront with ⟨t, rfl, -⟩ | ⟨n, c', e, rfl, -, hn, -⟩
    · rw [converted_of_shield hfront] at happ
      obtain ⟨x, rfl, hx⟩ := exists_of_append_eq hrest.1 happ
      obtain ⟨b, hy, hlen⟩ := ih hrest.2 (fun hmem => hs (List.mem_append_right _ hmem)) hx
      exact ⟨b, hy, hlen.trans hlt.le⟩
    · obtain ⟨t, ht, hopen⟩ := exists_call_eq h hn
      rw [converted_of_length hfront, ht, List.append_assoc] at happ
      obtain ⟨x, rfl, hx⟩ := exists_of_append_eq hopen happ
      cases x with
      | nil => exact ⟨rest, (List.cons.inj hx).2.symm, hlt.le⟩
      | cons e x =>
        refine absurd (List.mem_append_right t ?_) hs
        rw [← (List.cons.inj hx).1]
        exact List.mem_cons_self
  | case3 d r hfront ih =>
    rw [converted_of_none hfront] at happ
    obtain ⟨hd, hr⟩ := not_or.1 (mt List.mem_cons.2 hcs)
    have hone : ')' ∉ [d] := by simpa using hd
    obtain ⟨x, rfl, hx⟩ := exists_of_append_eq hone happ
    obtain ⟨b, hy, hlen⟩ := ih hr (fun hmem => hs (List.mem_append_right _ hmem)) hx
    exact ⟨b, hy, hlen.trans (Nat.le_succ _)⟩

/-! ## The second pass -/

/-- A quote that opens no shield opens none after the first pass either. -/
theorem through?_converted_eq_none (h : IsHarmless property) (hquote : Sheet.isQuote c = true)
    (hnone : through? c cs = none) : through? c (converted property cs) = none := by
  rw [through?_eq_none_iff] at hnone ⊢
  rcases hnone with hhead | hmem
  · obtain ⟨r, rfl⟩ := List.head?_eq_some_iff.1 hhead
    have hnumber : inNumber c = false := by
      rcases Sheet.isQuote_iff.1 hquote with rfl | rfl <;> rfl
    obtain ⟨y, hy⟩ : ∃ y, converted property (c :: r) = c :: y := exists_converted_cons hnumber r
    exact Or.inl (by rw [hy]; rfl)
  · exact Or.inr (not_mem_converted h hquote hmem)

/-- An address that opens no shield opens one after the first pass only if it is closed by a
call. -/
theorem exists_behind_address (h : IsHarmless property) (hnone : through? ')' cs = none)
    (hne : s ≠ []) (hs : ')' ∉ s) (happ : converted property cs = s ++ ')' :: r) :
    ∃ b, r = ')' :: converted property b ∧ b.length ≤ cs.length := by
  rcases through?_eq_none_iff.1 hnone with hhead | hmem
  · obtain ⟨cs, rfl⟩ := List.head?_eq_some_iff.1 hhead
    obtain ⟨y, hy⟩ : ∃ y, converted property (')' :: cs) = ')' :: y :=
      exists_converted_cons rfl cs
    obtain ⟨d, s, rfl⟩ := List.exists_cons_of_ne_nil hne
    rw [hy] at happ
    exact absurd ((List.cons.inj happ).1 ▸ List.mem_cons_self) hs
  · exact exists_behind_paren h hmem hs happ

theorem shield?_quote (hquote : Sheet.isQuote c = true) (cs : List Char) :
    shield? (c :: cs) = (through? c cs).map fun (t, r) => ([c] ++ t, r) := by
  have hopening : opening? (c :: cs) = some ([c], c, cs) := by
    rcases Sheet.isQuote_iff.1 hquote with rfl | rfl <;> rfl
  exact shield?_of_opening hopening

/-- Where the second pass takes something that the first one did not, this is a shield that ends
within a call, and behind it stands what the first pass made of the rest. -/
theorem resumes_behind_call (h : IsHarmless property) {p : Piece}
    (hfirst : front? (c :: cs) = none)
    (hsecond : front? (c :: converted property cs) = some (p, r)) :
    ∃ t b, p = .shield t ∧ r = ')' :: converted property b ∧ b.length ≤ cs.length := by
  rcases front?_eq_some hsecond with ⟨t, rfl, hshield⟩ | ⟨n, p, x, rfl, happ, hn, hunit⟩
  · have hnone := shield?_eq_none_of_front? hfirst
    by_cases hquote : Sheet.isQuote c = true
    · rw [shield?_quote hquote, Option.map_eq_none_iff] at hnone
      rw [shield?_quote hquote, through?_converted_eq_none h hquote hnone] at hshield
      cases hshield
    obtain ⟨o, q, s, ho, hne, hs, rfl⟩ := shield?_eq_some hshield
    obtain ⟨happ, ⟨rfl, -⟩ | ⟨rfl, -⟩ | ⟨name, hname, rfl, rfl⟩⟩ := opening?_eq_some ho
    · exact absurd ((List.cons.inj happ).1 ▸ rfl) hquote
    · exact absurd ((List.cons.inj happ).1 ▸ rfl) hquote
    · obtain ⟨u, v, w, rfl, -, hv, hw⟩ := exists_of_isUrlName hname
      obtain ⟨rfl, hrest⟩ := List.cons.inj happ
      have hletters : ∀ d ∈ [v, w, '('], StartsNothing d := by
        have hv' := startsNothing_of_toLower hv (by decide)
        have hw' := startsNothing_of_toLower hw (by decide)
        have hparen : StartsNothing '(' := by decide
        simp [hv', hw', hparen]
      -- the name was there before, and the shield is closed by a call
      have hbody : converted property cs = [v, w, '('] ++ (s ++ ')' :: r) := by
        simpa using hrest
      obtain ⟨cs, rfl, hcs⟩ := exists_of_converted_eq_append hbody hletters
      have hopening : opening? (c :: ([v, w, '('] ++ cs)) = some ([c, v, w, '('], ')', cs) :=
        opening?_url hname cs
      rw [shield?_of_opening hopening, Option.map_eq_none_iff] at hnone
      obtain ⟨b, hr, hlen⟩ := exists_behind_address h hnone hne hs hcs.symm
      exact ⟨_, b, rfl, hr, hlen.trans (by simp; omega)⟩
  · -- a length was one before
    obtain ⟨d, n, rfl⟩ := List.exists_cons_of_ne_nil hn.ne_nil
    obtain ⟨rfl, hrest⟩ := List.cons.inj happ
    have hlength : IsLength (c :: n ++ [p, x]) := ⟨_, p, x, rfl, hn, hunit⟩
    obtain ⟨cs, rfl, -⟩ := exists_of_converted_eq_append hrest fun e he =>
      startsNothing_of_isLength hlength e (List.mem_cons_of_mem c he)
    exact absurd hfirst (front?_ne_none hlength)

/-- Converting a text twice is converting it once. -/
theorem converted_converted (h : IsHarmless property) (cs : List Char) :
    converted property (converted property cs) = converted property cs := by
  match cs with
  | [] => rw [converted_nil, converted_nil]
  | c :: cs =>
    cases hfirst : front? (c :: cs) with
    | some q =>
      obtain ⟨p, r⟩ := q
      have hlt : r.length < (c :: cs).length := by
        obtain ⟨happ, hne⟩ := front?_append hfirst
        rw [happ, List.length_append]
        have := List.length_pos_iff.2 hne
        omega
      have ih := converted_converted h r
      rcases front?_eq_some hfirst with ⟨t, rfl, hshield⟩ | ⟨n, p, x, rfl, -, hn, -⟩
      · have happ : c :: cs = t ++ r := (front?_append hfirst).1
        rw [converted_of_shield hfirst]
        rw [happ] at hshield
        rw [converted_of_shield (front?_of_shield (shield?_congr hshield _)), ih]
      · rw [converted_of_length hfirst, converted_call_append h hn, ih]
    | none =>
      rw [converted_of_none hfirst]
      cases hsecond : front? (c :: converted property cs) with
      | none => rw [converted_of_none hsecond, converted_converted h cs]
      | some q =>
        obtain ⟨p, r⟩ := q
        obtain ⟨t, b, rfl, rfl, hlen⟩ := resumes_behind_call h hfirst hsecond
        have hclose : converted property ([')'] ++ converted property b) =
            [')'] ++ converted property (converted property b) :=
          converted_append_of_heads (by decide) _
        have happ : c :: converted property cs = t ++ ')' :: converted property b :=
          (front?_append hsecond).1
        rw [converted_of_shield hsecond, happ]
        exact congrArg _ (hclose.trans (congrArg _ (converted_converted h b)))
termination_by cs.length
decreasing_by
  · exact Nat.lt_succ_self _
  · exact Nat.lt_succ_of_le hlen
  · exact hlt

/-- A value that is converted has nothing left to convert, whatever quotes and addresses it leaves
open, if the custom property has no digits, quotes and parentheses and there are no fallbacks. -/
theorem convert_convert (h : IsHarmless property) (value : String) :
    convert property .none (convert property .none value) = convert property .none value := by
  rw [← String.toList_inj, toList_convert, toList_convert, converted_converted h]

/-- An address without an end, closed by the first call, and a string without an end behind it. -/
theorem convert_convert_openAddress : IsHarmless "--u" ∧
    convert "--u" .none "url(1px \"2px" = "url(calc(1*var(--u)) \"calc(2*var(--u))" ∧
    convert "--u" .none "url(calc(1*var(--u)) \"calc(2*var(--u))" =
      "url(calc(1*var(--u)) \"calc(2*var(--u))" := by
  have hfirst : convert "--u" .none "url(1px \"2px" =
      "url(calc(1*var(--u)) \"calc(2*var(--u))" := by
    decide +kernel
  have hharmless : IsHarmless "--u" := by
    intro c hc
    have hcases : c = '-' ∨ c = 'u' := by simpa using hc
    rcases hcases with rfl | rfl <;> decide
  have hsecond := convert_convert hharmless "url(1px \"2px"
  rw [hfirst] at hsecond
  exact ⟨hharmless, hfirst, hsecond⟩

end PixelUnit.Lengths
