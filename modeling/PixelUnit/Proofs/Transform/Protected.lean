import PixelUnit.Proofs.Sheet.Lexemes
import PixelUnit.Proofs.Transform.Pieces

/-!
# Protected text

Which lengths of a value the conversion replaces, and which tokens of the value it touches.

Every pixel length in a value lies in a shield or is the end of a length that the plain reading
takes (`exists_piece_of_lengthAt`). So the conversion leaves strings and addresses alone, and
replaces every length outside strings, exactly where shields and tokens hold the same lengths:
`spares_and_reaches_iff`. They do not hold the same everywhere, since shields know no escapes and
are never empty.
-/

namespace PixelUnit.Lengths

open Regex Text

/-! ## Lengths in a text -/

/-- Whether a character can stand in a number. -/
def inNumber (c : Char) : Bool :=
  c.isDigit || c == '.'

theorem IsNumber.all {n : List Char} (h : IsNumber n) : ∀ c ∈ n, inNumber c = true := by
  obtain ⟨ds, point, es, rfl, hdigits, -, hpoint⟩ := h
  intro c hc
  simp only [List.mem_append] at hc
  rcases hc with (hc | hc) | hc
  · simp [inNumber, hdigits c (by simp [hc])]
  · rcases hpoint with rfl | rfl
    · cases hc
    · simp [inNumber, List.mem_singleton.1 hc]
  · simp [inNumber, hdigits c (by simp [hc])]

theorem IsNumber.ne_nil {n : List Char} (h : IsNumber n) : n ≠ [] := by
  obtain ⟨ds, point, es, rfl, -, hes, -⟩ := h
  simp [hes]

theorem toLower_of_inNumber {c : Char} (h : inNumber c = true) : c.toLower = c := by
  rcases Bool.or_eq_true_iff.1 h with h | h
  · exact toLower_of_isDigit h
  · rw [beq_iff_eq.1 h]
    rfl

theorem not_inNumber_of_isUnit {c d : Char} (h : isUnit c d = true) :
    inNumber c = false ∧ inNumber d = false := by
  obtain ⟨hc, hd⟩ := Bool.and_eq_true_iff.1 h
  constructor
  · refine Bool.eq_false_iff.2 fun hn => ?_
    have hp := beq_iff_eq.1 hc
    rw [toLower_of_inNumber hn] at hp
    exact absurd (hp ▸ hn) (by decide)
  · refine Bool.eq_false_iff.2 fun hn => ?_
    have hx := beq_iff_eq.1 hd
    rw [toLower_of_inNumber hn] at hx
    exact absurd (hx ▸ hn) (by decide)

/-- A quote and a closing parenthesis are no part of a length. -/
theorem IsLength.not_mem {cs : List Char} (h : IsLength cs) {c : Char}
    (hc : c = '"' ∨ c = '\'' ∨ c = ')') : c ∉ cs := by
  obtain ⟨n, p, x, rfl, hn, hunit⟩ := h
  obtain ⟨hp, hx⟩ := Bool.and_eq_true_iff.1 hunit
  intro hm
  rcases List.mem_append.1 hm with hm | hm
  · have := hn.all c hm
    rcases hc with rfl | rfl | rfl <;> exact absurd this (by decide)
  · have : c.toLower = 'p' ∨ c.toLower = 'x' := by
      rcases List.mem_cons.1 hm with rfl | hm
      · exact Or.inl (beq_iff_eq.1 hp)
      · rw [List.mem_singleton.1 hm]
        exact Or.inr (beq_iff_eq.1 hx)
    rcases hc with rfl | rfl | rfl <;> exact absurd this (by decide)

/-- A number is taken as a whole where no digit and no point follows. -/
theorem number?_append {n r : List Char} (hn : IsNumber n)
    (hr : ∀ c ∈ r.head?, inNumber c = false) : number? (n ++ r) = some (n, r) := by
  obtain ⟨ds, point, es, rfl, hdigits, hes, hpoint⟩ := hn
  have hds : ∀ c ∈ ds, c.isDigit = true := fun c hc => hdigits c (by simp [hc])
  have hes' : ∀ c ∈ es, c.isDigit = true := fun c hc => hdigits c (by simp [hc])
  have hstop : ∀ c ∈ r.head?, c.isDigit = false := fun c hc =>
    (Bool.or_eq_false_iff.1 (hr c hc)).1
  rcases hpoint with rfl | rfl
  · -- all of it are digits, and what follows is no point
    have hall : ∀ c ∈ ds ++ [] ++ es, c.isDigit = true := by simpa using hdigits
    have hdrop := dropWhile_run hall hstop
    have hno : ∀ s, (ds ++ [] ++ es ++ r).dropWhile Char.isDigit ≠ '.' :: s := by
      intro s hs
      rw [hdrop] at hs
      exact absurd (hr '.' (by rw [hs]; rfl)) (by decide)
    rw [number?_of_no_point hno, takeWhile_run hall hstop, hdrop, if_neg (by simp [hes])]
  · have hpt : ∀ c ∈ ('.' :: (es ++ r)).head?, c.isDigit = false := by
      rintro c hc
      rw [← Option.some.inj hc]
      rfl
    have happ : ds ++ ['.'] ++ es ++ r = ds ++ '.' :: (es ++ r) := by simp
    rw [happ, number?_of_point (dropWhile_run hds hpt), takeWhile_run hds hpt,
      takeWhile_run hes' hstop, dropWhile_run hes' hstop, if_neg hes]
    simp

theorem length?_append {n r : List Char} {c d : Char} (hn : IsNumber n) (hu : isUnit c d = true) :
    length? (n ++ [c, d] ++ r) = some (n, [c, d], r) := by
  have hstop : ∀ e ∈ (c :: d :: r).head?, inNumber e = false := by
    intro e he
    rw [← Option.some.inj he]
    exact (not_inNumber_of_isUnit hu).1
  rw [List.append_assoc, length?, List.cons_append, List.cons_append, List.nil_append,
    number?_append hn hstop]
  simp [unit?, hu]

theorem through?_append {c : Char} {s : List Char} (hne : s ≠ []) (hs : c ∉ s) (r : List Char) :
    through? c (s ++ c :: r) = some (s ++ [c], r) := by
  have hrun : ∀ d ∈ s, (d != c) = true := fun d hd => by
    simpa using fun h : d = c => hs (h ▸ hd)
  have hstop : ∀ d ∈ (c :: r).head?, (d != c) = false := by simp
  rw [through?, takeWhile_run hrun hstop, dropWhile_run hrun hstop, if_neg hne]

/-! ## Every length is shielded or taken -/

/-- A length at the front of a text is taken, unless a shield is. -/
theorem front?_ne_none {cs r : List Char} (h : IsLength cs) : front? (cs ++ r) ≠ none := by
  obtain ⟨n, c, d, rfl, hn, hu⟩ := h
  intro hnone
  have := (Option.or_eq_none_iff.1 hnone).2
  rw [length?_append hn hu] at this
  cases this

/-- A length that starts in a shield ends in it. -/
theorem length_le_of_shield {cs t r s before inside behind : List Char}
    (hshield : shield? cs = some (t, r)) (ht : t = before ++ inside) (hin : inside ≠ [])
    (hs : IsLength s) (h : s ++ behind = inside ++ r) : s.length ≤ inside.length := by
  obtain ⟨o, c, body, ho, -, -, hbody⟩ := shield?_eq_some hshield
  obtain ⟨-, hclose⟩ := opening?_eq_some ho
  have hc : c ∉ s := hs.not_mem <| by
    rcases hclose with ⟨-, rfl⟩ | ⟨-, rfl⟩ | ⟨_, -, -, rfl⟩ <;> simp
  -- the closing character is the last one inside
  have hlast : inside.getLast hin = c := by
    have hend : (before ++ inside).getLast (by simp [hin]) = c := by
      simp [← ht, hbody]
    rwa [List.getLast_append_of_ne_nil _ hin] at hend
  rcases List.append_eq_append_iff.1 h with ⟨x, rfl, -⟩ | ⟨x, rfl, -⟩
  · simp
  · exact absurd (List.mem_append_left x (hlast ▸ List.getLast_mem hin)) hc

/-- A length that starts in another one ends where it ends. -/
theorem length_eq_of_length {n before inside r s behind : List Char} {c d : Char}
    (hn : IsNumber n) (hu : isUnit c d = true) (h : n ++ [c, d] = before ++ inside)
    (hin : inside ≠ []) (hs : IsLength s) (happ : s ++ behind = inside ++ r) :
    s.length = inside.length := by
  obtain ⟨hc, hd⟩ := not_inNumber_of_isUnit hu
  obtain ⟨n', c', d', rfl, hn', hu'⟩ := hs
  obtain ⟨hc', -⟩ := not_inNumber_of_isUnit hu'
  rw [List.append_assoc] at happ
  rcases List.append_eq_append_iff.1 h with ⟨x, rfl, hx⟩ | ⟨x, rfl, rfl⟩
  · -- it cannot start in the unit
    obtain ⟨e, es, rfl⟩ := List.exists_cons_of_ne_nil hn'.ne_nil
    obtain ⟨i, is, rfl⟩ := List.exists_cons_of_ne_nil hin
    obtain rfl : e = i := (List.cons.inj happ).1
    have he : inNumber e = true := hn'.all e (by simp)
    have hmem : e ∈ [c, d] := by rw [hx]; simp
    rcases List.mem_cons.1 hmem with rfl | hmem
    · rw [hc] at he
      cases he
    · rw [List.mem_singleton.1 hmem, hd] at he
      cases he
  · -- both numbers are all that can stand in one
    have hx : ∀ e ∈ x, inNumber e = true := fun e he => hn.all e (by simp [he])
    have hstop : ∀ e ∈ ([c, d] ++ r).head?, inNumber e = false := fun e he => by
      rw [← Option.some.inj he]
      exact hc
    have hstop' : ∀ e ∈ ([c', d'] ++ behind).head?, inNumber e = false := fun e he => by
      rw [← Option.some.inj he]
      exact hc'
    rw [List.append_assoc] at happ
    have htake := congrArg (List.takeWhile inNumber) happ
    rw [takeWhile_run hn'.all hstop', takeWhile_run hx hstop] at htake
    simp [htake]

/-- Every length of a text lies in a shield or is the end of a length that is taken. -/
theorem exists_piece_of_isLength {text before s behind : List Char} (i : Nat)
    (h : text = before ++ s ++ behind) (hs : IsLength s) :
    ∃ p e, (p, e) ∈ placed Piece.text i (pieces text) ∧ e.start ≤ i + before.length ∧
      ((∃ t, p = .shield t) ∧ i + before.length + s.length ≤ e.stop ∨
        p.isLength = true ∧ e.stop = i + before.length + s.length) := by
  fun_induction pieces text generalizing i before with
  | case1 =>
    obtain ⟨n, c, d, rfl, -, -⟩ := hs
    simp at h
  | case2 c r p rest hfront hlt ih =>
    have hbehind : ∀ x, rest = x ++ s ++ behind → before = p.text ++ x →
        ∃ q e, (q, e) ∈ placed Piece.text i (p :: pieces rest) ∧ e.start ≤ i + before.length ∧
          ((∃ t, q = .shield t) ∧ i + before.length + s.length ≤ e.stop ∨
            q.isLength = true ∧ e.stop = i + before.length + s.length) := by
      rintro x hrest rfl
      obtain ⟨q, e, hmem, hextent⟩ := ih (i + p.text.length) hrest
      rw [Nat.add_assoc, ← List.length_append] at hextent
      exact ⟨q, e, List.mem_cons_of_mem _ hmem, hextent⟩
    have happ : p.text ++ rest = before ++ (s ++ behind) := by
      rw [← (front?_append hfront).1, h, List.append_assoc]
    rcases List.append_eq_append_iff.1 happ with ⟨x, hx, hrest⟩ | ⟨x, hx, hrest⟩
    · exact hbehind x (by rw [hrest, List.append_assoc]) hx
    by_cases hnil : x = []
    · subst hnil
      exact hbehind [] hrest.symm (by simpa using hx.symm)
    -- the length starts in this piece
    have hlen : p.text.length = before.length + x.length := by rw [hx, List.length_append]
    refine ⟨p, _, List.mem_cons_self, Nat.le_add_right i _, ?_⟩
    rcases front?_eq_some hfront with ⟨t, rfl, hshield⟩ | ⟨n, c', d', rfl, -, hn, hu⟩
    · have := length_le_of_shield hshield hx hnil hs hrest
      refine Or.inl ⟨⟨t, rfl⟩, ?_⟩
      dsimp only
      omega
    · have := length_eq_of_length hn hu hx hnil hs hrest
      refine Or.inr ⟨rfl, ?_⟩
      dsimp only
      omega
  | case3 c r hfront ih =>
    cases before with
    | nil =>
      rw [h] at hfront
      exact absurd hfront (front?_ne_none hs)
    | cons b before =>
      obtain ⟨rfl, hr⟩ := List.cons.inj h
      obtain ⟨p, e, hmem, hstart, hstop⟩ := ih (i + 1) hr
      refine ⟨p, e, List.mem_cons_of_mem _ hmem, ?_, ?_⟩
      · simp; omega
      · simpa [Nat.add_assoc, Nat.add_comm, Nat.add_left_comm] using hstop

theorem isLength_of_mem_pieces {text : List Char} {p : Piece} (h : p ∈ pieces text)
    (hp : p.isLength = true) : IsLength p.text := by
  fun_induction pieces text with
  | case1 => cases h
  | case2 c r q s hfront hlt ih =>
    rcases List.mem_cons.1 h with rfl | h
    · rcases front?_eq_some hfront with ⟨t, rfl, -⟩ | ⟨n, c', d, rfl, -, hn, hu⟩
      · cases hp
      · exact ⟨n, c', d, rfl, hn, hu⟩
    · exact ih h
  | case3 c r hfront ih =>
    rcases List.mem_cons.1 h with rfl | h
    · cases hp
    · exact ih h

/-! ## Strings, addresses and lengths of a value -/

/-- The tokens of a value, with their extents. -/
def tokensOf (value : String) : List (Sheet.Token × Extent) :=
  placed (fun t => t.raw.toList) 0 (Sheet.scanSource value).tokens

/-- Whether there is a pixel length at an extent of a value. -/
def LengthAt (value : String) (e : Extent) : Prop :=
  ∃ s, IsLength s ∧ e.Holds value.toList s

/-- Whether an extent lies in a shield of a value. -/
def Shielded (value : String) (e : Extent) : Prop :=
  ∃ t f, (.shield t, f) ∈ placed Piece.text 0 (pieces value.toList) ∧ e.Within f

/-- Whether a text holds `url(`, in letters of either case. -/
def HoldsUrl (cs : List Char) : Prop :=
  ∃ before name behind, cs = before ++ name ++ '(' :: behind ∧ Sheet.isUrlName name = true

/-- Whether no match that is replaced by something else shares a character with a string or an
address. -/
def Spares (value : String) : Prop :=
  ∀ m ∈ pattern.findAll value.toList, (m.group? 1).isSome = true →
    ∀ t e, (t, e) ∈ tokensOf value → t.kind = .string ∨ t.kind = .url → ¬(extentOf m).Meets e

/-- Whether every length outside strings is replaced, alone or as the end of a longer one, if the
value does not hold `url(`. -/
def Reaches (value : String) : Prop :=
  ¬HoldsUrl value.toList → ∀ e, LengthAt value e →
    (∀ t f, (t, f) ∈ tokensOf value → t.kind = .string → ¬e.Meets f) →
    ∃ m ∈ pattern.findAll value.toList, (m.group? 1).isSome = true ∧
      (extentOf m).start ≤ e.start ∧ (extentOf m).stop = e.stop

/-- Whether shields and tokens protect the same lengths: every length in a string or an address
lies in a shield, and, if the value does not hold `url(`, every length in a shield lies in a
string. -/
structure Agrees (value : String) : Prop where
  shielded : ∀ e, LengthAt value e → ∀ t f, (t, f) ∈ tokensOf value →
    t.kind = .string ∨ t.kind = .url → e.Meets f → Shielded value e
  inString : ¬HoldsUrl value.toList → ∀ e, LengthAt value e → Shielded value e →
    ∃ t f, (t, f) ∈ tokensOf value ∧ t.kind = .string ∧ e.Meets f

theorem LengthAt.nonempty {value : String} {e : Extent} (h : LengthAt value e) :
    e.start < e.stop := by
  obtain ⟨s, ⟨n, c, d, rfl, -, -⟩, before, behind, -, rfl⟩ := h
  simp

theorem exists_match_or_shielded {value : String} {e : Extent} (h : LengthAt value e) :
    Shielded value e ∨ ∃ m ∈ pattern.findAll value.toList, (m.group? 1).isSome = true ∧
      (extentOf m).start ≤ e.start ∧ (extentOf m).stop = e.stop := by
  obtain ⟨s, hs, before, behind, happ, rfl⟩ := h
  obtain ⟨p, f, hmem, hstart, hp⟩ := exists_piece_of_isLength 0 happ hs
  rw [Nat.zero_add] at hstart hp
  rcases hp with ⟨⟨t, rfl⟩, hstop⟩ | ⟨hp, hstop⟩
  · exact Or.inl ⟨t, f, hmem, hstart, hstop⟩
  · obtain ⟨m, hm, hgroup, rfl⟩ := exists_match_iff.2 ⟨p, hmem, hp⟩
    exact Or.inr ⟨m, hm, hgroup, hstart, hstop⟩

theorem lengthAt_of_match {value : String} {m : Match} (hm : m ∈ pattern.findAll value.toList)
    (hgroup : (m.group? 1).isSome = true) : LengthAt value (extentOf m) := by
  obtain ⟨p, hmem, hp⟩ := exists_match_iff.1 ⟨m, hm, hgroup, rfl⟩
  obtain ⟨pre, post, hpieces, he⟩ := mem_placed_iff.1 hmem
  refine ⟨p.text, isLength_of_mem_pieces (mem_of_mem_placed hmem) hp, pre.flatMap Piece.text,
    post.flatMap Piece.text, ?_, ?_⟩
  · rw [← flatMap_text_pieces value.toList, hpieces]
    simp
  · rw [he, Nat.zero_add]

/-- A match that is replaced by something else shares no character with a shield. -/
theorem not_meets_shield {value : String} {m : Match} (hm : m ∈ pattern.findAll value.toList)
    (hgroup : (m.group? 1).isSome = true) {t : List Char} {f : Extent}
    (ht : (.shield t, f) ∈ placed Piece.text 0 (pieces value.toList)) : ¬(extentOf m).Meets f := by
  intro hmeets
  obtain ⟨p, hplaced, hp⟩ := exists_match_iff.1 ⟨m, hm, hgroup, rfl⟩
  have heq := eq_of_mem_placed_of_meets hplaced ht hmeets
  rw [(Prod.mk.inj heq).1] at hp
  cases hp

/-- A length in a shield is not replaced. -/
theorem not_shielded_of_match {value : String} {m : Match}
    (hm : m ∈ pattern.findAll value.toList) (hgroup : (m.group? 1).isSome = true) {e : Extent}
    (he : e.start < e.stop) (hstart : (extentOf m).start ≤ e.start)
    (hstop : (extentOf m).stop = e.stop) : ¬Shielded value e := fun ⟨_, _, ht, hin⟩ =>
  not_meets_shield hm hgroup ht ((hin.meets he).of_within ⟨hstart, hstop.ge⟩)

/-- Strings and addresses are left alone exactly where the lengths in them are shielded. -/
theorem spares_iff {value : String} : Spares value ↔ ∀ e, LengthAt value e →
    ∀ t f, (t, f) ∈ tokensOf value → t.kind = .string ∨ t.kind = .url → e.Meets f →
      Shielded value e := by
  constructor
  · intro hspares e he t f ht hkind hmeets
    rcases exists_match_or_shielded he with hshield | ⟨m, hm, hgroup, hstart, hstop⟩
    · exact hshield
    · exact absurd (hmeets.of_within ⟨hstart, hstop.ge⟩) (hspares m hm hgroup t f ht hkind)
  · intro hshielded m hm hgroup t f ht hkind hmeets
    have he := lengthAt_of_match hm hgroup
    exact not_shielded_of_match hm hgroup he.nonempty (Nat.le_refl _) rfl
      (hshielded _ he t f ht hkind hmeets)

/-- Lengths outside strings are replaced exactly where they are not shielded. -/
theorem reaches_iff {value : String} : Reaches value ↔ (¬HoldsUrl value.toList →
    ∀ e, LengthAt value e → Shielded value e →
      ∃ t f, (t, f) ∈ tokensOf value ∧ t.kind = .string ∧ e.Meets f) := by
  constructor
  · intro hreaches hurl e he hshield
    by_contra hnone
    obtain ⟨m, hm, hgroup, hstart, hstop⟩ := hreaches hurl e he fun t f ht hkind hmeets =>
      hnone ⟨t, f, ht, hkind, hmeets⟩
    exact not_shielded_of_match hm hgroup he.nonempty hstart hstop hshield
  · intro hinString hurl e he hnone
    rcases exists_match_or_shielded he with hshield | hmatch
    · obtain ⟨t, f, ht, hkind, hmeets⟩ := hinString hurl e he hshield
      exact absurd hmeets (hnone t f ht hkind)
    · exact hmatch

/-- The conversion leaves the text between the matches as it is and replaces the matches. No match
that becomes a multiple touches a string or an address, and every length outside strings becomes
one, exactly if shields and tokens protect the same lengths. -/
theorem spares_and_reaches_iff (property : String) (fallback : Fallback) (value : String) :
    (convert property fallback value).toList = (pattern.cutFrom [] value.toList).flatMap
        (Sum.elim (fun c => [c]) (replacement property fallback)) ∧
      (Spares value ∧ Reaches value ↔ Agrees value) := by
  refine ⟨?_, ?_, fun hagrees => ?_⟩
  · rw [convert, String.toList_ofList, Pattern.replace, Pattern.replaceFrom_eq_flatMap]
  · rintro ⟨hspares, hreaches⟩
    exact ⟨spares_iff.1 hspares, reaches_iff.1 hreaches⟩
  · exact ⟨spares_iff.2 hagrees.shielded, reaches_iff.2 hagrees.inString⟩

/-- Whether a value is read to its end without a fault and holds no comment. -/
structure Clean (value : String) : Prop where
  failure : (Sheet.scanSource value).failure = none
  faults : (Sheet.scanSource value).final.faults = []
  comments : ∀ t ∈ (Sheet.scanSource value).tokens, t.kind ≠ .comment

theorem not_spares_of_match {value : String}
    (h : ∃ m ∈ pattern.findAll value.toList, (m.group? 1).isSome = true ∧
      ∃ te ∈ tokensOf value, te.1.kind = .string ∧ (extentOf m).Meets te.2) : ¬Spares value := by
  obtain ⟨m, hm, hgroup, ⟨t, e⟩, ht, hkind, hmeets⟩ := h
  exact fun hspares => hspares m hm hgroup t e ht (Or.inl hkind) hmeets

/-- An escaped quote ends a shield, but not the string it stands in. -/
theorem not_spares_escapedQuote :
    Clean "\"a\\\"1px\"" ∧ ¬Spares "\"a\\\"1px\"" ∧
      convert "--u" .none "\"a\\\"1px\"" = "\"a\\\"calc(1*var(--u))\"" := by
  refine ⟨⟨?_, ?_, ?_⟩, not_spares_of_match ?_, ?_⟩ <;> decide +kernel

/-- Two empty strings make a shield of what stands between them. -/
theorem not_reaches_emptyStrings :
    Clean "\"\" 1px \"\"" ∧ ¬Reaches "\"\" 1px \"\"" ∧
      convert "--u" .none "\"\" 1px \"\"" = "\"\" 1px \"\"" := by
  have hclean : Clean "\"\" 1px \"\"" :=
    ⟨by decide +kernel, by decide +kernel, by decide +kernel⟩
  refine ⟨hclean, fun hreaches => ?_, by decide +kernel⟩
  have hurl : ¬HoldsUrl "\"\" 1px \"\"".toList := by
    rintro ⟨before, name, behind, h, -⟩
    have hmem : '(' ∈ "\"\" 1px \"\"".toList := by rw [h]; simp
    exact absurd hmem (by decide)
  have hlength : LengthAt "\"\" 1px \"\"" ⟨3, 6⟩ := by
    have hone : IsNumber ['1'] :=
      ⟨[], [], ['1'], rfl, List.forall_mem_singleton.2 rfl, by simp, Or.inl rfl⟩
    exact ⟨['1', 'p', 'x'], ⟨['1'], 'p', 'x', rfl, hone, by decide +kernel⟩, ['"', '"', ' '],
      [' ', '"', '"'], by decide +kernel, rfl⟩
  have hout : ∀ te ∈ tokensOf "\"\" 1px \"\"", te.1.kind = .string →
      ¬(⟨3, 6⟩ : Extent).Meets te.2 := by decide +kernel
  have hnone : ∀ m ∈ pattern.findAll "\"\" 1px \"\"".toList, (m.group? 1).isSome = false := by
    decide +kernel
  obtain ⟨m, hm, hgroup, -⟩ := hreaches hurl _ hlength fun t f ht => hout (t, f) ht
  rw [hnone m hm] at hgroup
  cases hgroup

end PixelUnit.Lengths
