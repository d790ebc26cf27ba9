import PixelUnit.Proofs.Sheet.Calls
import PixelUnit.Proofs.Sheet.Cleaning
import PixelUnit.Proofs.Sheet.Renewing
import PixelUnit.Proofs.Transform.Protected

/-!
# Converted values

What the conversion makes of a value is read like the value but for the calls that stand where
lengths were: a length that is a part of a word is exchanged for a multiple of the custom property,
one after the other (`Lengths.exchange_pieces`). A value is steady if each of its lengths is such a
part (`Lengths.Steady`), and then its conversion can take its place, and names the custom property
when it is read (`Lengths.Steady.exists_exchange`).
-/

namespace PixelUnit.Lengths

open Sheet

/-! ## Characters of multiples -/

theorem isPlain_of_isAlphanum {c : Char} (h : c.isAlphanum = true ∨ c = '-') :
    isPlain c = true := by
  have hno : ∀ d ∈ '\\' :: '/' :: '@' :: separators, ¬(d.isAlphanum = true ∨ d = '-') :=
    List.all_iff_forall_prop.1 (by decide +kernel)
  exact isPlain_of_not_mem fun hm => hno c hm h

theorem isPlain_of_inNumber {c : Char} (h : inNumber c = true) : isPlain c = true := by
  rcases Bool.or_eq_true_iff.1 h with h | h
  · exact isPlain_of_isAlphanum (Or.inl (by simp [Char.isAlphanum, h]))
  · rw [beq_iff_eq.1 h]
    rfl

theorem isPlain_of_isUnit {c d : Char} (h : isUnit c d = true) :
    isPlain c = true ∧ isPlain d = true := by
  have hno : ∀ e ∈ '\\' :: '/' :: '@' :: separators, e.toLower ≠ 'p' ∧ e.toLower ≠ 'x' :=
    List.all_iff_forall_prop.1 (by decide +kernel)
  obtain ⟨hc, hd⟩ := Bool.and_eq_true_iff.1 h
  exact ⟨isPlain_of_not_mem fun hm => (hno c hm).1 (beq_iff_eq.1 hc),
    isPlain_of_not_mem fun hm => (hno d hm).2 (beq_iff_eq.1 hd)⟩

/-- No character of a number starts anything but a number. -/
theorem ne_of_inNumber {c : Char} (h : inNumber c = true) :
    isIdentStart c = false ∧ c ≠ '-' ∧ c ≠ '\\' ∧ c ≠ '\n' ∧ c ≠ '*' := by
  rcases Bool.or_eq_true_iff.1 h with h | h
  · have hdigits : ∀ n ∈ List.range' 48 10, isIdentStart (Char.ofNat n) = false ∧
        Char.ofNat n ≠ '-' ∧ Char.ofNat n ≠ '\\' ∧ Char.ofNat n ≠ '\n' ∧ Char.ofNat n ≠ '*' := by
      decide +kernel
    have hrange : 48 ≤ c.toNat ∧ c.toNat ≤ 57 := by
      simpa [Char.isDigit, UInt32.le_iff_toNat_le] using h
    rw [← Char.ofNat_toNat c]
    exact hdigits c.toNat (List.mem_range'_1.2 ⟨hrange.1, Nat.lt_succ_of_le hrange.2⟩)
  · rw [beq_iff_eq.1 h]
    decide +kernel

/-! ## The pieces -/

/-- A piece that is taken as a length is one: a number and a unit. -/
def Piece.Measures : Piece → Prop
  | .length n u => IsNumber n ∧ ∃ c d, u = [c, d] ∧ isUnit c d = true
  | _ => True

/-- Pieces that are taken as lengths are lengths. -/
theorem measures_of_mem_pieces {text : List Char} : ∀ p ∈ pieces text, p.Measures := by
  intro p h
  fun_induction pieces text with
  | case1 => cases h
  | case2 c r q s hfront hlt ih =>
    rcases List.mem_cons.1 h with rfl | h
    · rcases front?_eq_some hfront with ⟨t, rfl, -⟩ | ⟨n, c', d, rfl, -, hn, hu⟩
      · trivial
      · exact ⟨hn, c', d, rfl, hu⟩
    · exact ih h
  | case3 c r hfront ih =>
    rcases List.mem_cons.1 h with rfl | h
    · trivial
    · exact ih h

theorem Piece.Measures.text_ne_nil {p : Piece} (h : p.Measures) (hp : p.isLength = true) :
    p.text ≠ [] := by
  cases p with
  | plain | shield => cases hp
  | length n u => exact fun hnil => h.1.ne_nil (List.append_eq_nil_iff.1 hnil).1

theorem isName_calc : IsName "calc".toList where
  ident := List.all_iff_forall_prop.1 (by decide +kernel)
  start d hd := by
    obtain rfl : 'c' = d := Option.some.inj hd
    decide +kernel
  long := by decide

/-- What stands in the parentheses of `var`. -/
def argument (property : String) (fallback : Option String) : List Char :=
  property.toList ++ (fallback.map fun f => ',' :: f.toList).getD []

theorem toList_multiple (property number : String) (fallback : Option String) :
    (multiple property number fallback).toList = "calc".toList ++
      group (number.toList ++ "*var".toList ++ group (argument property fallback)) := by
  unfold multiple group argument
  cases fallback <;> simp

section Multiples

variable {property : String} {fallback : Fallback} {n u : List Char}

/-- Fallbacks that are no functions are no more than the length. -/
theorem mem_of_make (hfallback : fallback = .none ∨ fallback = .origin)
    {length number unit f : String}
    (h : fallback.make length number unit = some f) : f = length := by
  rcases hfallback with rfl | rfl
  · cases h
  · exact (Option.some.inj h).symm

theorem startsNumber_of_isNumber (hn : IsNumber n) (u : List Char) : StartsNumber (n ++ u) := by
  obtain ⟨c, r, rfl⟩ := List.exists_cons_of_ne_nil hn.ne_nil
  exact ⟨c, r ++ u, rfl, ne_of_inNumber (hn.all c List.mem_cons_self)⟩

/-- A multiple of a custom property is read as the call of a function. -/
theorem exists_readsInside (hne : property.toList ≠ [])
    (hplain : ∀ c ∈ property.toList, isPlain c = true) (hn : IsNumber n) {f : Option String}
    (hf : ∀ g, f = some g → ∀ c ∈ g.toList, isPlain c = true) :
    ∃ hs, ReadsInside (n ++ "*var".toList ++ group (argument property f)) hs := by
  have hargument : ∀ c ∈ argument property f, isPlain c = true := by
    intro c hc
    rcases List.mem_append.1 hc with hc | hc
    · exact hplain c hc
    · cases f with
      | none => cases hc
      | some g =>
        rcases List.mem_cons.1 hc with rfl | hc
        · rfl
        · exact hf g rfl c hc
  have hname : ∀ c ∈ n ++ "*var".toList, isPlain c = true := by
    intro c hc
    rcases List.mem_append.1 hc with hc | hc
    · exact isPlain_of_inNumber (hn.all c hc)
    · have hrest : ∀ d ∈ "*var".toList, isPlain d = true :=
        List.all_iff_forall_prop.1 (by decide +kernel)
      exact hrest c hc
  obtain ⟨c, r, harg⟩ := List.exists_cons_of_ne_nil
    (show argument property f ≠ [] from fun h => hne (List.append_eq_nil_iff.1 h).1)
  obtain ⟨d, t, hcons⟩ := List.exists_cons_of_ne_nil
    (show n ++ "*var".toList ≠ [] from fun h => hn.ne_nil (List.append_eq_nil_iff.1 h).1)
  rw [harg] at hargument ⊢
  have hurl : isUrlName (n ++ "*var".toList) = false := by
    refine Bool.eq_false_iff.2 fun h => ?_
    have hlength := isUrlName_length h
    simp at hlength
  rw [hcons] at hname hurl ⊢
  exact ⟨_, .call hname hurl (.word hargument)⟩

/-- All pieces but lengths stay as they are. -/
theorem Piece.converted_eq_text_or (p : Piece) (property : String) (fallback : Fallback) :
    p.converted property fallback = p.text ∨ ∃ n u, p = .length n u := by
  cases p with
  | plain | shield => exact Or.inl rfl
  | length n u => exact Or.inr ⟨n, u, rfl⟩

/-- What a fallback makes of a length is plain. -/
theorem isPlain_of_make (hfallback : fallback = .none ∨ fallback = .origin) {c d : Char}
    (hn : IsNumber n) (hu : isUnit c d = true) : ∀ f, fallback.make (String.ofList (n ++ [c, d]))
      (String.ofList n) (String.ofList [c, d]) = some f → ∀ e ∈ f.toList, isPlain e = true := by
  intro f hf e he
  rw [mem_of_make hfallback hf, String.toList_ofList] at he
  rcases List.mem_append.1 he with he | he
  · exact isPlain_of_inNumber (hn.all e he)
  · have hunit := isPlain_of_isUnit hu
    simp only [List.mem_cons, List.not_mem_nil, or_false] at he
    rcases he with rfl | rfl
    · exact hunit.1
    · exact hunit.2

/-- Lengths that are parts of words are converted one after the other. -/
theorem exchange_pieces (hne : property.toList ≠ [])
    (hplain : ∀ c ∈ property.toList, isPlain c = true)
    (hfallback : fallback = .none ∨ fallback = .origin) {m : List Char} {ps : List Piece}
    (hps : ∀ p ∈ ps, p.Measures) :
    ∀ {a : List Char} {us : List Token}, ReadsAlone (a ++ (ps.flatMap Piece.text ++ m)) us →
      (∀ pre p post, ps = pre ++ p :: post → p.isLength = true →
        InWord us (a ++ pre.flatMap Piece.text) p.text (post.flatMap Piece.text ++ m)) →
      (∀ t ∈ us, t.kind ≠ .comment) →
      ∃ vs, ReadsAlone (a ++ (ps.flatMap (Piece.converted property fallback) ++ m)) vs ∧
        (∀ awaited, Prelude.Awaits awaited → Prelude.passes awaited (vs.map Token.kind) =
          Prelude.passes awaited (us.map Token.kind)) ∧
        ∀ t ∈ vs, t.kind ≠ .comment := by
  induction ps with
  | nil => exact fun hus _ hcomment => ⟨_, hus, fun _ _ => rfl, hcomment⟩
  | cons p ps ih =>
    intro a us hus hin hcomment
    obtain ⟨hp, htail⟩ := List.forall_mem_cons.1 hps
    -- A piece that is kept moves to the texts in front; a length is exchanged for a call first.
    rcases p.converted_eq_text_or property fallback with hkept | ⟨n, u, rfl⟩
    · have hrest := ih htail (a := a ++ p.text) (by simpa using hus)
        (fun pre q post hq hlength => by
          simpa using hin (p :: pre) q post (by rw [hq]; rfl) hlength) hcomment
      simpa [hkept] using hrest
    · obtain ⟨hn, c, d, rfl, hu⟩ := hp
      obtain ⟨hs, hinside⟩ := exists_readsInside hne hplain hn (isPlain_of_make hfallback hn hu)
      have hword := hin [] (.length n [c, d]) ps rfl rfl
      obtain ⟨us', hus', hpasses, hcomment', hlater⟩ := ReadsAlone.exchange_call
        (by simpa [Piece.text] using hus) (by simpa [Piece.text] using hword)
        (startsNumber_of_isNumber hn [c, d]) isName_calc hinside
      obtain ⟨vs, hvs, hpasses', hvs'⟩ := ih htail (a := a ++ ("calc".toList ++ group _))
        (by simpa using hus')
        -- The lengths behind it are parts of words still: of the rest of this word, or of other
        -- words.
        (fun pre q post hq hlength => by
          have hq' := hin (.length n [c, d] :: pre) q post (by rw [hq]; rfl) hlength
          have hmoved := hlater (pre.flatMap Piece.text) q.text (post.flatMap Piece.text ++ m)
            (by rw [hq]; simp)
            ((htail q (by rw [hq]; simp)).text_ne_nil hlength) (by simpa [Piece.text] using hq')
          simpa using hmoved)
        (hcomment' hcomment)
      refine ⟨vs, ?_, fun awaited ha => (hpasses' awaited ha).trans (hpasses awaited ha), hvs'⟩
      rw [List.flatMap_cons, Piece.converted, toList_multiple]
      simpa using hvs

end Multiples

/-! ## Steady values -/

/-- Whether a stretch of a text is a part of a word among the tokens of the text, and the rest of
that word is a word at its place. -/
def LiesInWord (ts : List Token) (text : List Char) (e : Text.Extent) : Prop :=
  ∃ y ∈ Text.placed (fun t : Token => t.raw.toList) 0 ts, y.1.kind = .word ∧
    y.2.start ≤ e.start ∧ e.stop + wordLength (text.drop e.stop) = y.2.stop

instance (ts : List Token) (text : List Char) (e : Text.Extent) :
    Decidable (LiesInWord ts text e) :=
  inferInstanceAs (Decidable (∃ _ ∈ _, _))

theorem flatMap_raw (ts : List Token) :
    ts.flatMap (fun t => t.raw.toList) = (rawText ts).toList := by
  induction ts with
  | nil => rfl
  | cons t ts ih => simp [ih]

/-- Whether a stretch lies in a word can be told from the tokens of the value. -/
theorem liesInWord_iff {ts : List Token} {a l b : List Char} (hts : ReadsAlone (a ++ (l ++ b)) ts) :
    LiesInWord ts (a ++ (l ++ b) ++ [';']) ⟨a.length, a.length + l.length⟩ ↔ InWord ts a l b := by
  have hdrop : (a ++ (l ++ b) ++ [';']).drop (a.length + l.length) = b ++ [';'] := by
    rw [← List.length_append, List.append_assoc, List.append_assoc, ← List.append_assoc a]
    exact List.drop_left
  unfold LiesInWord
  rw [hdrop]
  constructor
  · rintro ⟨⟨t, f⟩, hmem, hkind, hstart, hstop⟩
    obtain ⟨pre, post, rfl, rfl⟩ := Text.mem_placed_iff.1 hmem
    simp only [Nat.zero_add, flatMap_raw] at hkind hstart hstop
    have hraw := hts.rawText_eq
    rw [rawText_append, rawText_cons, String.toList_append, String.toList_append] at hraw
    -- the word starts in front of the part, and ends behind it
    obtain ⟨p, rfl⟩ : (rawText pre).toList <+: a :=
      List.prefix_of_prefix_length_le ⟨_, hraw⟩ ⟨_, rfl⟩ hstart
    rw [List.append_assoc, List.append_cancel_left_eq] at hraw
    rw [List.length_append] at hstop
    obtain ⟨q, hq⟩ : p ++ l <+: t.raw.toList := by
      refine List.prefix_of_prefix_length_le ⟨b, ?_⟩ ⟨_, hraw⟩ ?_
      · rw [List.append_assoc]
      · rw [List.length_append]
        omega
    rw [← hq, List.append_assoc, List.append_assoc, List.append_cancel_left_eq,
      List.append_cancel_left_eq] at hraw
    refine ⟨pre, post, p, q, ?_, rfl, hraw.symm, ?_⟩
    · have hbare : t.bare = t := List.map_inj_left.1 (hts.lexes.bare.trans (List.map_id _).symm) t
        (by simp)
      have hof : t.bare = .of t.kind t.raw.toList := by
        rw [Token.of, String.ofList_toList, Token.bare]
      rw [← List.append_assoc, hq, ← hkind, ← hof, hbare]
    · rw [← hq] at hstop
      simp only [List.length_append] at hstop
      omega
  · rintro ⟨pre, post, p, q, rfl, rfl, rfl, hlength⟩
    refine ⟨(.of .word (p ++ (l ++ q)), _), Text.mem_placed_iff.2 ⟨pre, post, rfl, rfl⟩, rfl, ?_,
      ?_⟩
    · simp [flatMap_raw]
    · rw [hlength]
      simp only [Token.toList_raw_of, flatMap_raw, List.length_append]
      omega

/-- Whether converting a value leaves everything around its lengths as it is. As it is written and
without its comments, with the mark of importance behind it, the value is read by itself, with the
same brackets, braces and semicolons; and every length in it is a part of a word. -/
def Steady (written value mark : String) : Prop :=
  ∃ us ∈ tokensAlone? (written ++ mark), ∃ vs ∈ tokensAlone? (value ++ mark),
    (us.map Token.kind).filter Token.Kind.delimits =
      (vs.map Token.kind).filter Token.Kind.delimits ∧
    (∀ t ∈ vs, t.kind ≠ .comment) ∧
    ∀ x ∈ Text.placed Piece.text 0 (pieces value.toList), x.1.isLength = true →
      LiesInWord vs (value ++ mark ++ ";").toList x.2

instance (written value mark : String) : Decidable (Steady written value mark) :=
  inferInstanceAs (Decidable (∃ us ∈ tokensAlone? _, ∃ vs ∈ tokensAlone? _, _ ∧ _))

example : Steady "0 /**/1.5px" "0 1.5px" " ! important" := by decide +kernel
example : ¬ Steady "1px\\;b" "1px\\;b" "" := by decide +kernel

/-- The parentheses of `var` in a value that was converted. -/
theorem exists_group_infix {property value : String} {fallback : Fallback}
    (h : convert property fallback value ≠ value) :
    ∃ f, group (argument property f) <:+: (convert property fallback value).toList := by
  obtain ⟨n, u, hp⟩ := exists_length_of_convert_ne h
  refine ⟨fallback.make (String.ofList (n ++ u)) (String.ofList n) (String.ofList u), ?_⟩
  rw [convert_eq_flatMap_pieces]
  refine List.IsInfix.trans ?_ (List.infix_of_mem_flatten (List.mem_map_of_mem hp))
  rw [Piece.converted, toList_multiple, String.toList_ofList]
  exact ⟨"calc".toList ++ '(' :: (n ++ "*var".toList), [')'], by simp [group]⟩

/-- A steady value can be exchanged for its conversion, and what is read then names the custom
property. -/
theorem Steady.exists_exchange {property : String} {fallback : Fallback}
    {written value mark : String} (h : Steady written value mark) (hne : property.toList ≠ [])
    (hplain : ∀ c ∈ property.toList, isPlain c = true)
    (hfallback : fallback = .none ∨ fallback = .origin)
    (hchange : convert property fallback value ≠ value) :
    ∃ us vs,
      Exchange (written ++ mark).toList (convert property fallback value ++ mark).toList us vs ∧
      ∀ important, Text.contains (String.ofList (cleanValue vs important)) property = true := by
  obtain ⟨us, hus, ws, hws, hdelimits, hcomment, hlengths⟩ := h
  have hus := tokensAlone?_eq_some_iff.1 hus
  have hws := tokensAlone?_eq_some_iff.1 hws
  have hin : ∀ pre p post, pieces value.toList = pre ++ p :: post → p.isLength = true →
      InWord ws ([] ++ pre.flatMap Piece.text) p.text (post.flatMap Piece.text ++ mark.toList) := by
    intro pre p post hpieces hp
    have hvalue : value.toList = pre.flatMap Piece.text ++ (p.text ++ post.flatMap Piece.text) := by
      rw [← flatMap_text_pieces value.toList, hpieces, List.flatMap_append, List.flatMap_cons]
    have hmem := hlengths (p, _) (Text.mem_placed_iff.2 ⟨pre, post, hpieces, rfl⟩) hp
    refine (liesInWord_iff ?_).1 ?_
    · simpa [hvalue] using hws
    · simpa [hvalue] using hmem
  obtain ⟨vs, hvs, hpasses, hvs'⟩ := exchange_pieces (m := mark.toList) hne hplain hfallback
    measures_of_mem_pieces (a := []) (by simpa [flatMap_text_pieces] using hws) hin hcomment
  rw [← convert_eq_flatMap_pieces, List.nil_append, ← String.toList_append] at hvs
  obtain ⟨f, hgroup⟩ := exists_group_infix hchange
  have hinfix : group (argument property f) <:+: (rawText vs).toList := by
    rw [hvs.rawText_eq, String.toList_append]
    exact hgroup.trans (List.prefix_append _ _).isInfix
  refine ⟨us, vs, ⟨hus, hvs, ?_, fun awaited ha => ?_⟩, fun important => ?_⟩
  · rintro rfl
    cases List.infix_nil.1 hinfix
  · rw [hpasses awaited ha, ← Prelude.passes_filter ha, ← hdelimits, Prelude.passes_filter ha]
  · have hblank : Text.isBlank '(' = false := by decide +kernel
    rw [Text.contains_iff, String.toList_ofList]
    refine List.IsInfix.trans ?_ (infix_cleanValue hvs' hblank hinfix important)
    exact ⟨['('], (f.map fun g => ',' :: g.toList).getD [] ++ [')'], by simp [argument]⟩

end PixelUnit.Lengths
