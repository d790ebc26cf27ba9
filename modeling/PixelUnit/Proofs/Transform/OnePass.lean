import PixelUnit.Proofs.Transform.Protected

/-!
# One pass over a value

The conversion tries a pattern at every place of a value, and the pattern gives characters back
where a try fails. What comes of it is one pass of the plain reading (`convert_in_one_pass`): its
pieces are put together again, every length replaced, and the fallback is asked for each length
once, from left to right (`requests_eq`). What was put in is not looked at again, since the pieces
are those of the value. A number is taken from its first digit on: no digit stands before a length
that is replaced (`not_isDigit_before`).
-/

namespace PixelUnit.Lengths

open Regex

/-! ## What fallbacks are asked for -/

/-- What a fallback is made from: a length, its number and its unit. -/
structure Request where
  length : String
  number : String
  unit : String
deriving DecidableEq

/-- What a fallback answers. -/
def Request.answer (fallback : Fallback) (q : Request) : Option String :=
  fallback.make q.length q.number q.unit

/-- What the fallback is asked for at a match: something only if the match is a length. -/
def request? (m : Match) : Option Request :=
  (m.group? 1).map fun number =>
    ⟨String.ofList m.text, String.ofList number, String.ofList ((m.group? 2).getD [])⟩

/-- What the fallback is asked for as a text is converted, in order. -/
def requests (text : List Char) : List Request :=
  (pattern.findAll text).filterMap request?

/-- What a piece asks the fallback for. -/
def Piece.request? : Piece → Option Request
  | .length n u => some ⟨String.ofList (n ++ u), String.ofList n, String.ofList u⟩
  | _ => none

/-- A match is replaced by what the fallback answers, and is kept if nothing is asked for. -/
def answered (property : String) (fallback : Fallback) (m : Match) : List Char :=
  match request? m with
  | some q => (multiple property q.number (q.answer fallback)).toList
  | none => m.text

/-- What replaces a match is what is answered to the request at it. -/
theorem replacement_eq_answered (property : String) (fallback : Fallback) :
    replacement property fallback = answered property fallback := by
  funext m
  unfold replacement answered request?
  cases m.group? 1 <;> rfl

/-- A piece asks for what its match asks for. -/
theorem request?_cut (b r : List Char) (p : Piece) :
    (p.cut b r).getRight?.bind request? = p.request? := by
  cases p with
  | plain c => rfl
  | shield t => simp [Piece.cut, request?, Piece.request?, Match.group?, Place.group?, Piece.groups]
  | length n u =>
    have hnumber : ((Piece.length n u).groups (n ++ (u ++ r)) r).lookup 1 =
        some ⟨n ++ (u ++ r), u ++ r⟩ := rfl
    have hunit : ((Piece.length n u).groups (n ++ (u ++ r)) r).lookup 2 = some ⟨u ++ r, r⟩ := rfl
    have hboth : (⟨n ++ (u ++ r), r⟩ : Span).text = n ++ u := by
      rw [← List.append_assoc, text_span]
    simp [Piece.cut, request?, Piece.request?, Piece.text, Match.group?, Place.group?, Match.text,
      Place.upTo, hnumber, hunit, text_span, hboth]

/-- The fallback is asked for the lengths, in their order. -/
theorem requests_eq (text : List Char) :
    requests text = (pieces text).filterMap Piece.request? := by
  have hcuts : ∀ b ps, (cuts b ps).filterMap (fun x => x.getRight?.bind request?) =
      ps.filterMap Piece.request? := by
    intro b ps
    induction ps generalizing b with
    | nil => rfl
    | cons p ps ih => rw [cuts, List.filterMap_cons, List.filterMap_cons, request?_cut, ih]
  rw [requests, Pattern.findAll, cutFrom_eq, List.filterMap_filterMap, hcuts]

/-! ## What stands before a length -/

theorem not_isDigit_of_isUnit {c d : Char} (h : isUnit c d = true) : d.isDigit = false :=
  (Bool.or_eq_false_iff.1 (not_inNumber_of_isUnit h).2).1

/-- A piece other than a single character does not end in a digit. -/
theorem not_isDigit_of_front? {cs r : List Char} {p : Piece} (h : front? cs = some (p, r))
    (b : List Char) : ∀ c ∈ (p.text.reverse ++ b).head?, c.isDigit = false := by
  intro c hc
  rcases front?_eq_some h with ⟨t, rfl, hshield⟩ | ⟨n, c', d, rfl, -, -, hunit⟩
  · obtain ⟨o, q, s, ho, -, -, rfl⟩ := shield?_eq_some hshield
    obtain ⟨-, hclose⟩ := opening?_eq_some ho
    obtain rfl : q = c := by simpa [Piece.text] using hc
    rcases hclose with ⟨-, rfl⟩ | ⟨-, rfl⟩ | ⟨-, -, -, rfl⟩ <;> rfl
  · obtain rfl : d = c := by simpa [Piece.text] using hc
    exact not_isDigit_of_isUnit hunit

/-- No length stands behind a digit that nothing is taken at. -/
theorem length?_of_front?_eq_none {c : Char} {cs : List Char} (h : front? (c :: cs) = none)
    (hc : c.isDigit = true) : length? cs = none := by
  by_contra hne
  obtain ⟨⟨n, u, r⟩, hlength⟩ := Option.ne_none_iff_exists'.1 hne
  obtain ⟨rfl, ⟨ds, point, es, rfl, hdigits, hes, hpoint⟩, d, e, rfl, hunit⟩ :=
    length?_eq_some hlength
  have hnumber : IsNumber (c :: (ds ++ point ++ es)) :=
    ⟨c :: ds, point, es, rfl, List.forall_mem_cons.2 ⟨hc, hdigits⟩, hes, hpoint⟩
  exact front?_ne_none ⟨_, d, e, rfl, hnumber, hunit⟩ h

/-- No digit stands before a length that is replaced. -/
theorem not_isDigit_before {b text : List Char}
    (hb : ∀ c ∈ b.head?, c.isDigit = true → length? text = none) {m : Match}
    (hm : .inr m ∈ cuts b (pieces text)) (hlength : (m.group? 1).isSome = true) :
    ∀ c ∈ m.first.before.head?, c.isDigit = false := by
  fun_induction pieces text generalizing b with
  | case1 => cases hm
  | case2 c r p rest hfront hlt ih =>
    rcases List.mem_cons.1 hm with hm | hm
    · rcases front?_eq_some hfront with ⟨t, rfl, -⟩ | ⟨n, c', d, rfl, happ, hn, hunit⟩
      · obtain rfl := Sum.inr.inj hm
        simp [Match.group?, Place.group?, Piece.groups] at hlength
      · obtain rfl := Sum.inr.inj hm
        intro e he
        refine Bool.eq_false_iff.2 fun hdigit => ?_
        have hnone := hb e he hdigit
        rw [happ, length?_append hn hunit] at hnone
        cases hnone
    · refine ih (fun e he hdigit => ?_) hm
      rw [not_isDigit_of_front? hfront b e he] at hdigit
      cases hdigit
  | case3 c r hfront ih =>
    rcases List.mem_cons.1 hm with hm | hm
    · cases hm
    · refine ih (fun e he hdigit => ?_) hm
      obtain rfl : c = e := Option.some.inj he
      exact length?_of_front?_eq_none hfront hdigit

/-! ## The conversion -/

/-- The conversion is one pass over a value: its pieces are put together again, every length
replaced by what the fallback answers for it, and the fallback is asked for each length once, from
left to right. No digit stands before a length that is replaced. -/
theorem convert_in_one_pass (property : String) (fallback : Fallback) (value : String) :
    (convert property fallback value).toList =
        (pieces value.toList).flatMap (Piece.converted property fallback) ∧
      (convert property fallback value).toList = (pattern.cutFrom [] value.toList).flatMap
        (Sum.elim (fun c => [c]) (answered property fallback)) ∧
      requests value.toList = (pieces value.toList).filterMap Piece.request? ∧
      ∀ m ∈ pattern.findAll value.toList, (m.group? 1).isSome = true →
        ∀ c ∈ m.first.before.head?, c.isDigit = false := by
  refine ⟨convert_eq_flatMap_pieces property fallback value, ?_, requests_eq value.toList, ?_⟩
  · rw [← replacement_eq_answered, convert, String.toList_ofList, Pattern.replace,
      Pattern.replaceFrom_eq_flatMap]
  · intro m hm hlength
    rw [Pattern.findAll, cutFrom_eq] at hm
    have hmem : .inr m ∈ cuts [] (pieces value.toList) := by simpa using hm
    exact not_isDigit_before (by simp) hmem hlength

/-- A number with two points, an address without an end, and a length behind it. -/
example : pieces "1.2.3px url(4PX".toList =
    [.plain '1', .plain '.', .length ['2', '.', '3'] ['p', 'x'], .plain ' ', .plain 'u', .plain 'r',
      .plain 'l', .plain '(', .length ['4'] ['P', 'X']] := by
  decide +kernel

end PixelUnit.Lengths
