import PixelUnit.Proofs.Regex.Rounds
import PixelUnit.Proofs.Text.Contains
import PixelUnit.Proofs.Text.Extents
import PixelUnit.Sheet.Lexeme
import PixelUnit.Transform.Lengths

/-!
# A plain reading of values

What the conversion does to a value, without a pattern that is tried and given up again.
`Lengths.pieces` reads a value once from left to right: at a quote with one or more other
characters and the same quote behind it, and at `url(` with one or more characters and a closing
parenthesis behind it, it takes all of that, a shield; at a number with `px` behind it, it takes
the length; elsewhere it takes one character. There are no escapes in this reading.

`matchAt_eq` says that the pattern matches at a place what the plain reading takes there, and
`convert_eq_flatMap_pieces` that the conversion puts the pieces together again, every length
replaced.
-/

namespace PixelUnit.Lengths

open Regex

/-! ## The reading -/

/-- A part of a value as the conversion sees it. -/
inductive Piece where
  /-- A character that stays. -/
  | plain (c : Char)
  /-- A quoted text, or an address, that stays. -/
  | shield (text : List Char)
  /-- A pixel length. -/
  | length (number unit : List Char)
deriving DecidableEq

/-- The text of a piece. -/
def Piece.text : Piece → List Char
  | .plain c => [c]
  | .shield t => t
  | .length n u => n ++ u

/-- Whether a piece is a pixel length. -/
def Piece.isLength : Piece → Bool
  | .length .. => true
  | _ => false

/-- A text through the next `c`, and the text behind that; something must stand before `c`. -/
def through? (c : Char) (cs : List Char) : Option (List Char × List Char) :=
  if cs.takeWhile (· != c) = [] then none
  else
    match cs.dropWhile (· != c) with
    | [] => none
    | d :: r => some (cs.takeWhile (· != c) ++ [d], r)

/-- What opens a shield at the front of a text, the character that closes it, and the text behind
the opening. -/
def opening? : List Char → Option (List Char × Char × List Char)
  | '"' :: r => some (['"'], '"', r)
  | '\'' :: r => some (['\''], '\'', r)
  | u :: v :: w :: '(' :: r =>
    if Sheet.isUrlName [u, v, w] then some ([u, v, w, '('], ')', r) else none
  | _ => none

/-- The shield at the front of a text, and the text behind. -/
def shield? (cs : List Char) : Option (List Char × List Char) :=
  (opening? cs).bind fun (opening, c, r) => (through? c r).map fun (t, s) => (opening ++ t, s)

/-- The number at the front of a text, the longest there is, and the text behind. -/
def number? (cs : List Char) : Option (List Char × List Char) :=
  match cs.dropWhile Char.isDigit with
  | '.' :: r =>
    if r.takeWhile Char.isDigit = [] then none
    else some (cs.takeWhile Char.isDigit ++ '.' :: r.takeWhile Char.isDigit,
      r.dropWhile Char.isDigit)
  | r => if cs.takeWhile Char.isDigit = [] then none else some (cs.takeWhile Char.isDigit, r)

/-- Whether two characters are the unit of a pixel length. -/
def isUnit (c d : Char) : Bool :=
  c.toLower == 'p' && d.toLower == 'x'

/-- The unit at the front of a text, and the text behind. -/
def unit? : List Char → Option (List Char × List Char)
  | c :: d :: r => if isUnit c d then some ([c, d], r) else none
  | _ => none

/-- The pixel length at the front of a text, number and unit, and the text behind. -/
def length? (cs : List Char) : Option (List Char × List Char × List Char) :=
  (number? cs).bind fun (n, r) => (unit? r).map fun (u, s) => (n, u, s)

/-- The shield or the length at the front of a text, and the text behind. -/
def front? (cs : List Char) : Option (Piece × List Char) :=
  ((shield? cs).map fun (t, r) => (.shield t, r)).or
    ((length? cs).map fun (n, u, r) => (.length n u, r))

/-! ## What is taken -/

theorem eq_of_dropWhile_ne {c d : Char} {cs r : List Char}
    (h : cs.dropWhile (· != c) = d :: r) : d = c := by
  have hmem : d ∈ (cs.dropWhile (· != c)).head? := by
    rw [h]
    rfl
  simpa using Text.eq_false_of_mem_head?_dropWhile hmem

theorem through?_eq_some {c : Char} {cs t r : List Char} (h : through? c cs = some (t, r)) :
    ∃ s, s ≠ [] ∧ c ∉ s ∧ t = s ++ [c] ∧ cs = t ++ r := by
  unfold through? at h
  split at h
  · cases h
  · rename_i hne
    split at h
    · cases h
    · rename_i d r' hdrop
      cases h
      have happ := List.takeWhile_append_dropWhile (p := (· != c)) (l := cs)
      rw [hdrop, eq_of_dropWhile_ne hdrop] at happ
      refine ⟨cs.takeWhile (· != c), hne, fun hm => ?_, by rw [eq_of_dropWhile_ne hdrop], ?_⟩
      · simpa using List.mem_takeWhile_imp hm
      · rw [eq_of_dropWhile_ne hdrop]
        simpa using happ.symm

theorem opening?_eq_some {cs o r : List Char} {c : Char} (h : opening? cs = some (o, c, r)) :
    cs = o ++ r ∧ (o = ['"'] ∧ c = '"' ∨ o = ['\''] ∧ c = '\'' ∨
      ∃ name, Sheet.isUrlName name = true ∧ o = name ++ ['('] ∧ c = ')') := by
  unfold opening? at h
  split at h
  · cases h
    exact ⟨rfl, Or.inl ⟨rfl, rfl⟩⟩
  · cases h
    exact ⟨rfl, Or.inr (Or.inl ⟨rfl, rfl⟩)⟩
  · rename_i u v w r _ _
    split at h
    · rename_i hname
      cases h
      exact ⟨rfl, Or.inr (Or.inr ⟨[u, v, w], hname, rfl, rfl⟩)⟩
    · cases h
  · cases h

theorem shield?_of_opening {cs o r : List Char} {c : Char} (h : opening? cs = some (o, c, r)) :
    shield? cs = (through? c r).map fun (t, s) => (o ++ t, s) := by
  rw [shield?, h]
  rfl

/-- A shield, its opening and its closing character among it. -/
theorem shield?_eq_some {cs t r : List Char} (h : shield? cs = some (t, r)) :
    ∃ o c s, opening? cs = some (o, c, s ++ [c] ++ r) ∧ s ≠ [] ∧ c ∉ s ∧ t = o ++ s ++ [c] := by
  obtain ⟨⟨o, c, q⟩, ho, h⟩ := Option.bind_eq_some_iff.1 h
  obtain ⟨⟨t', r'⟩, ht, he⟩ := Option.map_eq_some_iff.1 h
  obtain ⟨rfl, rfl⟩ := Prod.mk.inj he
  obtain ⟨s, hne, hs, rfl, rfl⟩ := through?_eq_some ht
  exact ⟨o, c, s, ho, hne, hs, by simp⟩

/-- A text that is a number: digits, perhaps with a point before the last of them. -/
def IsNumber (n : List Char) : Prop :=
  ∃ ds point es, n = ds ++ point ++ es ∧ (∀ c ∈ ds ++ es, c.isDigit = true) ∧ es ≠ [] ∧
    (point = [] ∨ point = ['.'])

/-- A text that is a pixel length. -/
def IsLength (cs : List Char) : Prop :=
  ∃ n c d, cs = n ++ [c, d] ∧ IsNumber n ∧ isUnit c d = true

theorem number?_of_point {cs r : List Char} (h : cs.dropWhile Char.isDigit = '.' :: r) :
    number? cs = if r.takeWhile Char.isDigit = [] then none
      else some (cs.takeWhile Char.isDigit ++ '.' :: r.takeWhile Char.isDigit,
        r.dropWhile Char.isDigit) := by
  simp [number?, h]

theorem number?_of_no_point {cs : List Char} (h : ∀ r, cs.dropWhile Char.isDigit ≠ '.' :: r) :
    number? cs = if cs.takeWhile Char.isDigit = [] then none
      else some (cs.takeWhile Char.isDigit, cs.dropWhile Char.isDigit) := by
  unfold number?
  split
  · rename_i r hr
    exact absurd hr (h r)
  · rfl

theorem number?_eq_some {cs n r : List Char} (h : number? cs = some (n, r)) :
    cs = n ++ r ∧ IsNumber n := by
  have happ := List.takeWhile_append_dropWhile (p := Char.isDigit) (l := cs)
  have hds : ∀ c ∈ cs.takeWhile Char.isDigit, c.isDigit = true := fun _ => List.mem_takeWhile_imp
  unfold number? at h
  split at h
  · rename_i r' hdrop
    split at h
    · cases h
    · rename_i hes
      cases h
      rw [hdrop] at happ
      refine ⟨by simp [happ], cs.takeWhile Char.isDigit, ['.'], r'.takeWhile Char.isDigit,
        by simp, fun c hc => ?_, hes, Or.inr rfl⟩
      rcases List.mem_append.1 hc with hc | hc
      · exact hds c hc
      · exact List.mem_takeWhile_imp hc
  · split at h
    · cases h
    · rename_i hne
      cases h
      exact ⟨happ.symm, [], [], cs.takeWhile Char.isDigit, rfl, hds, hne, Or.inl rfl⟩

theorem unit?_eq_some {cs u r : List Char} (h : unit? cs = some (u, r)) :
    cs = u ++ r ∧ ∃ c d, u = [c, d] ∧ isUnit c d = true := by
  unfold unit? at h
  split at h
  · rename_i c d r'
    split at h
    · rename_i hu
      cases h
      exact ⟨rfl, c, d, rfl, hu⟩
    · cases h
  · cases h

theorem length?_eq_some {cs n u r : List Char} (h : length? cs = some (n, u, r)) :
    cs = n ++ u ++ r ∧ IsNumber n ∧ ∃ c d, u = [c, d] ∧ isUnit c d = true := by
  obtain ⟨⟨n', s⟩, hn, h⟩ := Option.bind_eq_some_iff.1 h
  obtain ⟨⟨u', r'⟩, hu, he⟩ := Option.map_eq_some_iff.1 h
  simp only [Prod.mk.injEq] at he
  obtain ⟨rfl, rfl, rfl⟩ := he
  obtain ⟨rfl, hnum⟩ := number?_eq_some hn
  obtain ⟨rfl, hunit⟩ := unit?_eq_some hu
  exact ⟨by simp, hnum, hunit⟩

/-- What is taken at the front is a shield or a length. -/
theorem front?_eq_some {cs r : List Char} {p : Piece} (h : front? cs = some (p, r)) :
    (∃ t, p = .shield t ∧ shield? cs = some (t, r)) ∨
      ∃ n c d, p = .length n [c, d] ∧ cs = n ++ [c, d] ++ r ∧ IsNumber n ∧ isUnit c d = true := by
  rcases Option.or_eq_some_iff.1 h with h | ⟨-, h⟩
  · obtain ⟨⟨t, r'⟩, hs, he⟩ := Option.map_eq_some_iff.1 h
    obtain ⟨rfl, rfl⟩ := Prod.mk.inj he
    exact Or.inl ⟨t, rfl, hs⟩
  · obtain ⟨⟨n, u, r'⟩, hl, he⟩ := Option.map_eq_some_iff.1 h
    obtain ⟨rfl, rfl⟩ := Prod.mk.inj he
    obtain ⟨happ, hn, c, d, rfl, hu⟩ := length?_eq_some hl
    exact Or.inr ⟨n, c, d, rfl, happ, hn, hu⟩

/-- What is taken at the front and what is left make up the text. -/
theorem front?_append {cs r : List Char} {p : Piece} (h : front? cs = some (p, r)) :
    cs = p.text ++ r ∧ p.text ≠ [] := by
  rcases front?_eq_some h with ⟨t, rfl, hs⟩ | ⟨n, c, d, rfl, rfl, -, -⟩
  · obtain ⟨o, c, s, ho, -, -, rfl⟩ := shield?_eq_some hs
    obtain ⟨rfl, -⟩ := opening?_eq_some ho
    exact ⟨by simp [Piece.text], by simp [Piece.text]⟩
  · exact ⟨rfl, by simp [Piece.text]⟩

/-- The pieces of a value. -/
def pieces : List Char → List Piece
  | [] => []
  | c :: r =>
    match h : front? (c :: r) with
    | some (p, s) =>
      have : s.length < r.length + 1 := by
        obtain ⟨happ, hne⟩ := front?_append h
        have hlen := congrArg List.length happ
        have hpos := List.length_pos_iff.2 hne
        simp at hlen
        omega
      p :: pieces s
    | none => .plain c :: pieces r
termination_by text => text.length

theorem pieces_of_some {cs r : List Char} {p : Piece} (h : front? cs = some (p, r)) :
    pieces cs = p :: pieces r := by
  cases cs with
  | nil => cases h
  | cons c cs =>
    rw [pieces]
    split
    · rename_i q s hq
      rw [h] at hq
      cases hq
      rfl
    · rename_i hq
      rw [h] at hq
      cases hq

theorem pieces_of_none {c : Char} {cs : List Char} (h : front? (c :: cs) = none) :
    pieces (c :: cs) = .plain c :: pieces cs := by
  rw [pieces]
  split
  · rename_i hq
    rw [h] at hq
    cases hq
  · rfl

theorem flatMap_text_pieces (text : List Char) : (pieces text).flatMap Piece.text = text := by
  fun_induction pieces text with
  | case1 => rfl
  | case2 c r p s h _ ih => simp [ih, (front?_append h).1]
  | case3 c r h ih => simp [ih, Piece.text]

/-! ## The pattern takes the same -/

section Patterns

variable {b cs : List Char} {g : List (Nat × Span)} {k : Continuation}

theorem run_through (c : Char) :
    (Pattern.seq (untilChar c) (.char c .exact)).run ⟨b, cs, g⟩ k =
      (through? c cs).bind fun (t, r) => k ⟨t.reverse ++ b, r, g⟩ := by
  have hq : (Pattern.set [.char c] true .exact).run = Matcher.one (· != c) := by
    show Matcher.one _ = _
    congr 1
    funext d
    simp [SetItem.contains, CaseRule.agree, CaseRule.fold, bne, Bool.beq_comm]
  have hk : ∀ b d r, (d != c) = true →
      (Pattern.char c .exact).run ⟨b, d :: r, g⟩ k = none := by
    intro b d r hd
    have hd' : c ≠ d := fun h => by simp [h] at hd
    simp [Pattern.run, CaseRule.agree, CaseRule.fold, hd']
  show (Pattern.rep 1 none .greedy _).run ⟨b, cs, g⟩ _ = _
  rw [Pattern.run_rep_one hq rfl hk, through?]
  split
  · rfl
  · rename_i hne
    split
    · rename_i hdrop
      rw [hdrop]
      rfl
    · rename_i d r hdrop
      rw [hdrop]
      simp [Pattern.run, CaseRule.agree, CaseRule.fold, eq_of_dropWhile_ne hdrop]

theorem run_digit : digit.run = Matcher.one Char.isDigit := by
  show Matcher.one _ = _
  congr 1
  funext c
  simp [SetItem.contains, CaseRule.orbit, Char.isDigit, UInt32.le_iff_toNat_le]

/-- A number that nothing but a character other than a digit and a point may follow. -/
theorem run_number (hdigit : ∀ b c r, c.isDigit = true → k ⟨b, c :: r, g⟩ = none)
    (hpoint : ∀ b r, k ⟨b, '.' :: r, g⟩ = none) :
    numberPattern.run ⟨b, cs, g⟩ k =
      (number? cs).bind fun (n, r) => k ⟨n.reverse ++ b, r, g⟩ := by
  -- what follows the first digits, and what follows the point
  let tail : Continuation := fun s => (Pattern.rep 1 none .greedy digit).run s k
  let middle : Continuation := fun s =>
    (Pattern.rep 0 (some 1) .greedy (.char '.' .exact)).run s tail
  have htail : ∀ b cs, tail ⟨b, cs, g⟩ = if cs.takeWhile Char.isDigit = [] then none
      else k ⟨(cs.takeWhile Char.isDigit).reverse ++ b, cs.dropWhile Char.isDigit, g⟩ :=
    fun b cs => Pattern.run_rep_one run_digit rfl hdigit b cs
  have hmiddle : ∀ b cs, middle ⟨b, cs, g⟩ =
      (Matcher.one (CaseRule.exact.agree '.') ⟨b, cs, g⟩ tail).or (tail ⟨b, cs, g⟩) :=
    fun b cs => Pattern.run_rep_maybe rfl b cs
  have hstop : ∀ c ∈ (cs.dropWhile Char.isDigit).head?, c.isDigit = false :=
    fun _ => Text.eq_false_of_mem_head?_dropWhile
  -- giving digits back does not help: what follows takes them all again
  have hback : ∀ ds es, cs.takeWhile Char.isDigit = ds ++ es → es ≠ [] →
      middle ⟨ds.reverse ++ b, es ++ cs.dropWhile Char.isDigit, g⟩ =
        k ⟨(cs.takeWhile Char.isDigit).reverse ++ b, cs.dropWhile Char.isDigit, g⟩ := by
    intro ds es he hes
    have hall : ∀ c ∈ es, c.isDigit = true := fun c hc =>
      List.mem_takeWhile_imp (l := cs) (by rw [he]; simp [hc])
    have hnone : Matcher.one (CaseRule.exact.agree '.')
        ⟨ds.reverse ++ b, es ++ cs.dropWhile Char.isDigit, g⟩ tail = none := by
      refine Matcher.one_of_head fun c hc => ?_
      obtain ⟨e, es', rfl⟩ := List.exists_cons_of_ne_nil hes
      obtain rfl : e = c := by simpa using hc
      exact beq_false_of_ne fun h => by simpa [← show '.' = e from h] using hall e (by simp)
    rw [hmiddle, hnone, htail, Text.takeWhile_run hall hstop, Text.dropWhile_run hall hstop,
      if_neg hes, he]
    simp
  have hrest : tail ⟨(cs.takeWhile Char.isDigit).reverse ++ b, cs.dropWhile Char.isDigit, g⟩ =
      none := by
    have hnil : (cs.dropWhile Char.isDigit).takeWhile Char.isDigit = [] := by
      simpa using Text.takeWhile_run (List.forall_mem_nil _) hstop
    rw [htail, if_pos hnil]
  show (Pattern.rep 0 none .greedy digit).run ⟨b, cs, g⟩ middle = _
  rw [Pattern.run_rep_zero run_digit rfl _ b cs hback, hmiddle, hrest]
  by_cases hpt : ∃ r, cs.dropWhile Char.isDigit = '.' :: r
  · obtain ⟨r, hdrop⟩ := hpt
    rw [number?_of_point hdrop, hdrop, hpoint, Matcher.one_cons, if_pos (by rfl), htail]
    by_cases hes : r.takeWhile Char.isDigit = [] <;> simp [hes]
  · have hpt' : ∀ r, cs.dropWhile Char.isDigit ≠ '.' :: r := fun r hr => hpt ⟨r, hr⟩
    have hnone : Matcher.one (CaseRule.exact.agree '.') ⟨(cs.takeWhile Char.isDigit).reverse ++ b,
        cs.dropWhile Char.isDigit, g⟩ tail = none := by
      refine Matcher.one_of_head fun c hc => beq_false_of_ne fun h => ?_
      obtain ⟨r, hr⟩ := List.head?_eq_some_iff.1 hc
      exact hpt' r (by rw [hr, ← show '.' = c from h])
    rw [number?_of_no_point hpt', hnone]
    by_cases hds : cs.takeWhile Char.isDigit = [] <;> simp [hds]

theorem run_letter_nil (w : Char) : (letter w).run ⟨b, [], g⟩ k = none := rfl

theorem run_letter_cons {w : Char} (hw : w.toLower = w) (c : Char) (r : List Char) :
    (letter w).run ⟨b, c :: r, g⟩ k = if c.toLower == w then k ⟨c :: b, r, g⟩ else none := by
  show (if w.toLower == c.toLower then _ else _) = _
  rw [hw, Bool.beq_comm]

theorem run_unit :
    (Pattern.group 2 (.seq (letter 'p') (letter 'x'))).run ⟨b, cs, g⟩ k =
      (unit? cs).bind fun (u, r) => k ⟨u.reverse ++ b, r, (2, ⟨cs, r⟩) :: g⟩ := by
  show (letter 'p').run ⟨b, cs, g⟩ (fun s => (letter 'x').run s _) = _
  match cs with
  | [] => rfl
  | [c] =>
    rw [run_letter_cons rfl]
    split <;> rfl
  | c :: d :: r =>
    rw [run_letter_cons rfl, run_letter_cons rfl, unit?, isUnit]
    by_cases hc : c.toLower = 'p' <;> by_cases hd : d.toLower = 'x' <;>
      simp [hc, hd, Place.upTo]

theorem toLower_of_isDigit {c : Char} (h : c.isDigit = true) : c.toLower = c := by
  simp only [Char.isDigit, Bool.and_eq_true, decide_eq_true_eq, ge_iff_le] at h
  have hupper : ¬('A'.val ≤ c.val ∧ c.val ≤ 'Z'.val) := fun hu => by
    have := UInt32.le_trans hu.1 h.2
    exact absurd this (by decide)
  exact dif_neg hupper

theorem run_length :
    lengthPattern.run ⟨b, cs, g⟩ k = (length? cs).bind fun (n, u, r) =>
      k ⟨(n ++ u).reverse ++ b, r, (2, ⟨u ++ r, r⟩) :: (1, ⟨cs, u ++ r⟩) :: g⟩ := by
  show numberPattern.run ⟨b, cs, g⟩ (fun t =>
    (Pattern.group 2 (.seq (letter 'p') (letter 'x'))).run
      { t with groups := (1, ⟨cs, t.after⟩) :: t.groups } k) = _
  rw [run_number]
  · rw [length?, Option.bind_assoc]
    congr 1
    funext ⟨n, r⟩
    dsimp only
    rw [run_unit]
    cases hu : unit? r with
    | none => rfl
    | some p =>
      obtain ⟨u, s⟩ := p
      simp [(unit?_eq_some hu).1]
  · intro b c r hc
    rw [run_unit]
    match r with
    | [] => rfl
    | d :: r =>
      have hne : c ≠ 'p' := fun h => absurd (h ▸ hc) (by decide)
      simp [unit?, isUnit, toLower_of_isDigit hc, hne]
  · intro b r
    rw [run_unit]
    match r with
    | [] => rfl
    | d :: r => rfl

theorem run_quoted (q : Char) (r : List Char) :
    (quotedPattern q).run ⟨b, q :: r, g⟩ k =
      (through? q r).bind fun (t, s) => k ⟨t.reverse ++ q :: b, s, g⟩ := by
  show (if q == q then (Pattern.seq _ _).run _ k else none) = _
  rw [if_pos (beq_self_eq_true q), run_through]

theorem run_quoted_of_ne {q : Char} (h : ∀ r, cs ≠ q :: r) :
    (quotedPattern q).run ⟨b, cs, g⟩ k = none := by
  show Matcher.one (CaseRule.exact.agree q) ⟨b, cs, g⟩ (fun s => (Pattern.seq _ _).run s k) = none
  refine Matcher.one_of_head fun c hc => (beq_false_of_ne fun he => ?_ : (q == c) = false)
  obtain ⟨r, hr⟩ := List.head?_eq_some_iff.1 hc
  exact h r (by rw [hr, he])

theorem run_url (u v w : Char) (r : List Char) :
    urlPattern.run ⟨b, u :: v :: w :: '(' :: r, g⟩ k =
      if Sheet.isUrlName [u, v, w] then
        (through? ')' r).bind fun (t, s) => k ⟨t.reverse ++ '(' :: w :: v :: u :: b, s, g⟩
      else none := by
  show (letter 'u').run _ (fun s => (letter 'r').run s fun s => (letter 'l').run s fun s =>
    Matcher.one _ s fun s => (Pattern.seq _ _).run s k) = _
  have hparen : CaseRule.exact.agree '(' '(' = true := rfl
  rw [run_letter_cons rfl, run_letter_cons rfl, run_letter_cons rfl, Matcher.one_cons,
    if_pos hparen, run_through]
  by_cases hu : u.toLower = 'u' <;> by_cases hv : v.toLower = 'r' <;>
    by_cases hw : w.toLower = 'l' <;> simp [Sheet.isUrlName, hu, hv, hw]

theorem run_url_of_ne (h : ∀ u v w r, cs ≠ u :: v :: w :: '(' :: r) :
    urlPattern.run ⟨b, cs, g⟩ k = none := by
  show (letter 'u').run _ (fun s => (letter 'r').run s fun s => (letter 'l').run s fun s =>
    Matcher.one (fun c => '(' == c) s fun s => (Pattern.seq _ _).run s k) = none
  match cs with
  | [] => rfl
  | [u] =>
    rw [run_letter_cons rfl, run_letter_nil, ite_self]
  | [u, v] =>
    rw [run_letter_cons rfl, run_letter_cons rfl, run_letter_nil, ite_self, ite_self]
  | u :: v :: w :: r =>
    have hnone : ∀ k, Matcher.one (fun c => '(' == c) ⟨w :: v :: u :: b, r, g⟩ k = none := by
      refine fun k => Matcher.one_of_head fun c hc => beq_false_of_ne fun he => ?_
      obtain ⟨s, hs⟩ := List.head?_eq_some_iff.1 hc
      exact h u v w s (by rw [hs, he])
    rw [run_letter_cons rfl, run_letter_cons rfl, run_letter_cons rfl, hnone, ite_self, ite_self,
      ite_self]

/-- The branches for quoted texts and for addresses match what `shield?` takes off the text. -/
theorem run_shields :
    ((quotedPattern '"').run ⟨b, cs, g⟩ k).or (((quotedPattern '\'').run ⟨b, cs, g⟩ k).or
      (urlPattern.run ⟨b, cs, g⟩ k)) =
      (shield? cs).bind fun (t, r) => k ⟨t.reverse ++ b, r, g⟩ := by
  have hurl : ∀ c r, (c.toLower == 'u') = false → urlPattern.run ⟨b, c :: r, g⟩ k = none :=
    fun c r hc => by
      show (letter 'u').run _ (fun s => (Pattern.seq _ _).run s k) = none
      rw [run_letter_cons rfl, hc]
      rfl
  by_cases h1 : ∃ r, cs = '"' :: r
  · obtain ⟨r, rfl⟩ := h1
    rw [run_quoted, run_quoted_of_ne (by simp), hurl _ _ (by decide), shield?_of_opening rfl]
    cases through? '"' r <;> simp
  by_cases h2 : ∃ r, cs = '\'' :: r
  · obtain ⟨r, rfl⟩ := h2
    rw [run_quoted, run_quoted_of_ne (by simp), hurl _ _ (by decide), shield?_of_opening rfl]
    cases through? '\'' r <;> simp
  rw [run_quoted_of_ne fun r hr => h1 ⟨r, hr⟩, run_quoted_of_ne fun r hr => h2 ⟨r, hr⟩]
  by_cases h3 : ∃ u v w r, cs = u :: v :: w :: '(' :: r
  · obtain ⟨u, v, w, r, rfl⟩ := h3
    have ho : opening? (u :: v :: w :: '(' :: r) =
        if Sheet.isUrlName [u, v, w] then some ([u, v, w, '('], ')', r) else none := by
      rw [opening?]
      · exact fun hu => h1 ⟨_, by rw [hu]⟩
      · exact fun hu => h2 ⟨_, by rw [hu]⟩
    rw [run_url]
    split
    · rename_i hname
      rw [shield?_of_opening (ho.trans (if_pos hname))]
      cases through? ')' r <;> simp
    · rename_i hname
      rw [shield?, ho, if_neg hname]
      rfl
  · have ho : opening? cs = none := by
      unfold opening?
      split <;> simp_all
    rw [run_url_of_ne fun u v w r hr => h3 ⟨u, v, w, r, hr⟩, shield?, ho]
    rfl

/-- What the groups have matched at the end of a piece at the front of `cs`, with `r` behind it. -/
def Piece.groups (cs r : List Char) : Piece → List (Nat × Span)
  | .length _ u => [(2, ⟨u ++ r, r⟩), (1, ⟨cs, u ++ r⟩)]
  | _ => []

/-- The pattern matches at a place what the plain reading takes there. -/
theorem matchAt_eq : pattern.matchAt ⟨b, cs, []⟩ =
    (front? cs).map fun (p, r) => ⟨⟨b, cs, []⟩, ⟨p.text.reverse ++ b, r, p.groups cs r⟩⟩ := by
  have hrun : pattern.run ⟨b, cs, []⟩ some =
      ((shield? cs).bind fun (t, r) => some ⟨t.reverse ++ b, r, []⟩).or
        ((length? cs).bind fun (n, u, r) =>
          some ⟨(n ++ u).reverse ++ b, r, [(2, ⟨u ++ r, r⟩), (1, ⟨cs, u ++ r⟩)]⟩) := by
    rw [← run_shields, ← run_length, Option.or_assoc, Option.or_assoc]
    rfl
  rw [Pattern.matchAt, hrun, front?]
  cases shield? cs with
  | some t => rfl
  | none => cases length? cs <;> rfl

end Patterns

/-! ## The conversion of the pieces -/

/-- What a piece becomes. -/
def Piece.converted (property : String) (fallback : Fallback) : Piece → List Char
  | .length n u =>
    (multiple property (String.ofList n) (fallback.make (String.ofList (n ++ u)) (String.ofList n)
      (String.ofList u))).toList
  | p => p.text

/-- A piece as a replacement sees it, behind `b` and before `r`. -/
def Piece.cut (b r : List Char) : Piece → Char ⊕ Match
  | .plain c => .inl c
  | p => .inr ⟨⟨b, p.text ++ r, []⟩, ⟨p.text.reverse ++ b, r, p.groups (p.text ++ r) r⟩⟩

/-- Pieces as a replacement sees them, behind `b`. -/
def cuts (b : List Char) : List Piece → List (Char ⊕ Match)
  | [] => []
  | p :: ps => p.cut b (ps.flatMap Piece.text) :: cuts (p.text.reverse ++ b) ps

theorem cutFrom_eq (b text : List Char) : pattern.cutFrom b text = cuts b (pieces text) := by
  fun_induction pieces text generalizing b with
  | case1 => simp [Pattern.cutFrom, cuts]
  | case2 c r p s h hlt ih =>
    have hcut : p.cut b s = .inr ⟨⟨b, c :: r, []⟩,
        ⟨p.text.reverse ++ b, s, p.groups (c :: r) s⟩⟩ := by
      rw [(front?_append h).1]
      rcases front?_eq_some h with ⟨t, rfl, -⟩ | ⟨n, c', d, rfl, -⟩ <;> rfl
    rw [Pattern.cutFrom, matchAt_eq, h]
    simp only [Option.map_some, hlt, if_true, ih, cuts, flatMap_text_pieces, hcut]
  | case3 c r h ih =>
    rw [Pattern.cutFrom, matchAt_eq, h]
    simp [ih, cuts, Piece.cut, Piece.text]

theorem text_span (t r : List Char) : (⟨t ++ r, r⟩ : Span).text = t := by
  simp [Span.text]

theorem cut_converted (property : String) (fallback : Fallback) (b r : List Char) (p : Piece) :
    Sum.elim (fun c => [c]) (replacement property fallback) (p.cut b r) =
      p.converted property fallback := by
  cases p with
  | plain c => rfl
  | shield t =>
    simp [replacement, Piece.cut, Piece.converted, Piece.groups, Piece.text, Match.group?,
      Place.group?, Match.text, Place.upTo, text_span]
  | length n u =>
    have hboth : (⟨n ++ (u ++ r), r⟩ : Span).text = n ++ u := by
      rw [← List.append_assoc, text_span]
    have hnumber : ((Piece.length n u).groups (n ++ (u ++ r)) r).lookup 1 =
        some ⟨n ++ (u ++ r), u ++ r⟩ := rfl
    have hunit : ((Piece.length n u).groups (n ++ (u ++ r)) r).lookup 2 = some ⟨u ++ r, r⟩ := rfl
    simp [replacement, Piece.cut, Piece.converted, Piece.text, Match.group?, Place.group?,
      Match.text, Place.upTo, hnumber, hunit, text_span, hboth]

/-- The conversion puts the pieces together again, every length replaced. -/
theorem convert_eq_flatMap_pieces (property : String) (fallback : Fallback) (value : String) :
    (convert property fallback value).toList =
      (pieces value.toList).flatMap (Piece.converted property fallback) := by
  have hcuts : ∀ b ps,
      (cuts b ps).flatMap (Sum.elim (fun c => [c]) (replacement property fallback)) =
      ps.flatMap (Piece.converted property fallback) := by
    intro b ps
    induction ps generalizing b with
    | nil => rfl
    | cons p ps ih => simp [cuts, cut_converted, ih]
  rw [convert, String.toList_ofList, Pattern.replace, Pattern.replaceFrom_eq_flatMap, cutFrom_eq,
    hcuts]

/-- A multiple of a custom property names the property. -/
theorem infix_multiple (property number : String) (fallback : Option String) :
    property.toList <:+: (multiple property number fallback).toList := by
  refine ⟨("calc(" ++ number ++ "*var(").toList,
    ((fallback.map ("," ++ ·)).getD "" ++ "))").toList, ?_⟩
  unfold multiple
  cases fallback <;> simp [String.toList_append]

/-- There is a length in a value that the conversion changes. -/
theorem exists_length_of_convert_ne {property value : String} {fallback : Fallback}
    (h : convert property fallback value ≠ value) : ∃ n u, .length n u ∈ pieces value.toList := by
  by_contra hnone
  refine h (String.toList_inj.1 ?_)
  rw [convert_eq_flatMap_pieces]
  refine Eq.trans ?_ (flatMap_text_pieces value.toList)
  refine List.flatMap_congr fun p hp => ?_
  cases p with
  | plain | shield => rfl
  | length n u => exact absurd ⟨n, u, hp⟩ hnone

/-- A value that the conversion changes names the custom property then, whatever the fallbacks
are. -/
theorem contains_of_convert_ne {property value : String} {fallback : Fallback}
    (h : convert property fallback value ≠ value) :
    Text.contains (convert property fallback value) property = true := by
  obtain ⟨n, u, hp⟩ := exists_length_of_convert_ne h
  rw [Text.contains_iff, convert_eq_flatMap_pieces]
  exact (infix_multiple property _ _).trans (List.infix_of_mem_flatten (List.mem_map_of_mem hp))

/-- The extent of a match in its text. -/
def extentOf (m : Match) : Text.Extent :=
  ⟨m.first.before.length, m.last.before.length⟩

/-- The match that a length is, and no other piece, is replaced by something else. -/
theorem exists_cut_iff {b r : List Char} {p : Piece} {e : Text.Extent} :
    (∃ m, .inr m = p.cut b r ∧ (m.group? 1).isSome = true ∧ extentOf m = e) ↔
      p.isLength = true ∧ e = ⟨b.length, b.length + p.text.length⟩ := by
  cases p with
  | plain c => simp [Piece.cut, Piece.isLength]
  | shield t => simp [Piece.cut, Piece.isLength, Match.group?, Place.group?, Piece.groups]
  | length n u =>
    have hlen : ((n ++ u).reverse ++ b).length = b.length + (n ++ u).length := by
      rw [List.length_append, List.length_reverse, Nat.add_comm]
    constructor
    · rintro ⟨m, hm, -, rfl⟩
      obtain rfl := Sum.inr.inj hm
      exact ⟨rfl, congrArg (Text.Extent.mk b.length) hlen⟩
    · rintro ⟨-, rfl⟩
      exact ⟨_, rfl, rfl, congrArg (Text.Extent.mk b.length) hlen⟩

/-- The matches that are replaced by something else stand where the lengths are. -/
theorem exists_match_iff {text : List Char} {e : Text.Extent} :
    (∃ m ∈ pattern.findAll text, (m.group? 1).isSome = true ∧ extentOf m = e) ↔
      ∃ p, (p, e) ∈ Text.placed Piece.text 0 (pieces text) ∧ p.isLength = true := by
  have hcuts : ∀ b ps, (∃ m, .inr m ∈ cuts b ps ∧ (m.group? 1).isSome = true ∧ extentOf m = e) ↔
      ∃ p, (p, e) ∈ Text.placed Piece.text b.length ps ∧ p.isLength = true := by
    intro b ps
    induction ps generalizing b with
    | nil => simp [cuts, Text.placed]
    | cons p ps ih =>
      have hrest := ih (p.text.reverse ++ b)
      rw [List.length_append, List.length_reverse, Nat.add_comm] at hrest
      simp only [cuts, Text.placed, List.mem_cons, or_and_right, exists_or, exists_cut_iff, hrest,
        Prod.mk.injEq]
      refine or_congr_left ⟨?_, ?_⟩
      · rintro ⟨hp, he⟩
        exact ⟨p, ⟨rfl, he⟩, hp⟩
      · rintro ⟨_, ⟨rfl, he⟩, hp⟩
        exact ⟨hp, he⟩
  have hmem : ∀ m, m ∈ pattern.findAll text ↔ .inr m ∈ cuts [] (pieces text) := by
    intro m
    rw [Pattern.findAll, cutFrom_eq]
    simp
  simp only [hmem]
  exact hcuts [] (pieces text)

end PixelUnit.Lengths
