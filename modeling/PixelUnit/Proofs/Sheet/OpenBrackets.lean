import PixelUnit.Proofs.Sheet.Bare
import PixelUnit.Proofs.Sheet.Outline
import PixelUnit.Proofs.Sheet.Spots

/-!
# Brackets that are left open

A bracket that is opened in a property may be closed in the value, with a semicolon or a brace
between them that ends nothing. Once one of the two fields is a word, the brackets of the other one
stand by themselves, and they have to be closed there (`Balanced`): a bracket that the property
leaves open takes the semicolon or brace behind the declaration into the value
(`DeclarationCut.not_statement_of_open`), and a semicolon or a brace in the value ends it
(`DeclarationCut.not_statement_of_stops`). Either way what is read has another value, since the
semicolons and braces in it are others (`DeclarationCut.count_clean`).
-/

namespace PixelUnit.Sheet

variable {cs : List Char} {ts us : List Token} {w : String} {c : Char}

/-- The brackets in a text are closed in it, and neither a semicolon nor a brace stands outside of
them. -/
def Balanced (text : String) : Prop :=
  Prelude.passes [] ((scanSource text).tokens.map Token.kind) = some []

instance (text : String) : Decidable (Balanced text) :=
  inferInstanceAs (Decidable (_ = _))

/-- Whether a text is balanced is seen from the classes of its tokens. -/
theorem Lexes.balanced_iff {text : String} (h : Lexes text.toList ts) :
    Balanced text ↔ Prelude.passes [] (ts.map Token.kind) = some [] := by
  obtain ⟨-, -, rfl⟩ := h.scanSource
  rw [List.map_map]
  rfl

/-! ## Stacks of brackets -/

namespace Prelude

/-- While a bracket is open, a semicolon or a brace is part of the statement. -/
theorem tokens_read_of_open {left : List Token.Kind} (hw : Awaits left) (hne : left ≠ [])
    {u : Token} (hu : u.kind = .semicolon ∨ u.kind = .closeBrace) (r : List Token) :
    (read left (u :: r)).tokens = u :: (read left r).tokens := by
  have hending : ¬(u.kind == .ending) = true := by rcases hu with h | h <;> simp [h]
  have hhead : ¬(left.head? == some u.kind) = true :=
    hw.ne_head? (by rcases hu with h | h <;> simp [h]) (by rcases hu with h | h <;> simp [h])
  have hsquare : ¬(u.kind == .openSquare) = true := by rcases hu with h | h <;> simp [h]
  have hparen : ¬(u.kind == .openParen) = true := by rcases hu with h | h <;> simp [h]
  have hnone : left.isEmpty = false := by simpa using hne
  rw [read, if_neg hending, if_neg hhead, if_neg hsquare, if_neg hparen, if_neg (by simp [hnone]),
    if_neg (by simp [hnone])]
  rfl

/-- Tokens that close all brackets are also passed with fewer of them open, unless one of them ends
a statement then. -/
theorem passes_of_append {ks a b : List Token.Kind} (hw : Awaits (b ++ a))
    (h : passes (b ++ a) ks = some []) : passes b ks = none ∨ passes b ks = some [] := by
  induction ks generalizing a b with
  | nil =>
    obtain ⟨rfl, -⟩ := List.append_eq_nil_iff.1 (Option.some.inj h)
    exact Or.inr rfl
  | cons k ks ih =>
    rw [Outline.passes_cons_eq] at h ⊢
    split
    · exact Or.inl rfl
    -- With fewer brackets open the token ends no statement, so it ends none with more of them.
    next hgoes =>
    rw [if_neg fun hstops => hgoes ⟨(List.append_eq_nil_iff.1 hstops.1).1, hstops.2⟩] at h
    obtain ⟨below, hnest⟩ := Outline.exists_nest_append hw k
    have hawaits := Outline.awaits_nest hw k
    rw [hnest] at h hawaits
    exact ih hawaits h

/-- Where tokens are not passed, one that ends a statement stands behind tokens that are. -/
theorem exists_of_passes_eq_none {awaited ks : List Token.Kind} (h : passes awaited ks = none) :
    ∃ k₁ k k₂, ks = k₁ ++ k :: k₂ ∧ passes awaited k₁ = some [] ∧ k.stops = true := by
  fun_induction passes awaited ks with
  | case1 => cases h
  | case2 awaited k ks h1 ih =>
    obtain ⟨k₁, l, k₂, rfl, hpass, hl⟩ := ih h
    exact ⟨k :: k₁, l, k₂, rfl, by rw [passes, if_pos h1, hpass], hl⟩
  | case3 awaited k ks h1 h2 ih =>
    obtain ⟨k₁, l, k₂, rfl, hpass, hl⟩ := ih h
    exact ⟨k :: k₁, l, k₂, rfl, by rw [passes, if_neg h1, if_pos h2, hpass], hl⟩
  | case4 awaited k ks h1 h2 h3 ih =>
    obtain ⟨k₁, l, k₂, rfl, hpass, hl⟩ := ih h
    exact ⟨k :: k₁, l, k₂, rfl, by rw [passes, if_neg h1, if_neg h2, if_pos h3, hpass], hl⟩
  | case5 awaited k ks h1 h2 h3 h4 =>
    rw [Bool.and_eq_true, List.isEmpty_iff] at h4
    exact ⟨[], k, ks, rfl, by rw [h4.1]; rfl, h4.2⟩
  | case6 awaited k ks h1 h2 h3 h4 ih =>
    obtain ⟨k₁, l, k₂, rfl, hpass, hl⟩ := ih h
    exact ⟨k :: k₁, l, k₂, rfl,
      by rw [passes, if_neg h1, if_neg h2, if_neg h3, if_neg h4, hpass], hl⟩

/-- A statement that opens no block ends before a semicolon or a closing brace. -/
theorem kind_behind_line {awaited : List Token.Kind}
    (hopen : (read awaited ts).opensBlock = false) (hts : ∀ t ∈ ts, t.kind ≠ .ending) :
    ∀ u, ((read awaited ts).stop.toList ++ (read awaited ts).rest).head? = some u →
      u.kind = .semicolon ∨ u.kind = .closeBrace := by
  intro u hu
  rcases endsInSemicolon_or_closesNext hopen hts with ⟨v, hv, hkind, -⟩ | ⟨hnone, -, hnext⟩
  · rw [hv] at hu
    obtain rfl := Option.some.inj hu
    exact Or.inl hkind
  · rw [hnone] at hu
    exact Or.inr (hnext u hu)

end Prelude

/-! ## What is left of a value -/

/-- A character that ends a statement where no bracket is open. -/
def IsEnd (c : Char) : Prop :=
  c = ';' ∨ c = '\x7d'

theorem IsEnd.isBlank_eq (hc : IsEnd c) : Text.isBlank c = false := by
  rcases hc with rfl | rfl <;> decide +kernel

/-- No end of a statement is in a mark of importance. -/
theorem IsEnd.not_mem_mark (hc : IsEnd c) {front mark : List Char}
    (h : splitImportant cs = some (front, mark)) : c ∉ mark := by
  have hword : ∀ w ∈ importantWord, Text.sameUpToCase w ';' = false ∧
      Text.sameUpToCase w '\x7d' = false := List.all_iff_forall_prop.1 (by decide +kernel)
  obtain ⟨blanks, core, rfl, hblanks, hcore⟩ := exists_isMark h
  have hblank := hc.isBlank_eq
  intro hmem
  rcases List.mem_append.1 hmem with hmem | hmem
  · rw [hblanks c hmem] at hblank
    cases hblank
  rcases hcore.mem hmem with h | h | ⟨w, hw, h⟩
  · rcases hc with rfl | rfl <;> cases h
  · rw [h] at hblank
    cases hblank
  · rcases hc with rfl | rfl
    · rw [(hword w hw).1] at h
      cases h
    · rw [(hword w hw).2] at h
      cases h

/-- Blanks are not counted. -/
theorem count_eq_zero_of_isBlank (hc : Text.isBlank c = false)
    (hcs : ∀ d ∈ cs, Text.isBlank d = true) : cs.count c = 0 :=
  List.count_eq_zero.2 fun hmem => by
    rw [hcs c hmem] at hc
    cases hc

theorem count_trimStart (hc : Text.isBlank c = false) (cs : List Char) :
    (Text.trimStart cs).count c = cs.count c := by
  have hleading : (Text.leadingBlanks cs).count c = 0 :=
    count_eq_zero_of_isBlank hc fun _ => List.mem_takeWhile_imp
  have happ := congrArg (List.count c) (Text.trimStart_append cs)
  rwa [List.count_append, hleading, Nat.zero_add] at happ

theorem count_trimEnd (hc : Text.isBlank c = false) (cs : List Char) :
    (Text.trimEnd cs).count c = cs.count c := by
  have htrailing : (Text.trailingBlanks cs).count c = 0 :=
    count_eq_zero_of_isBlank hc fun _ hd => List.mem_takeWhile_imp (List.mem_reverse.1 hd)
  have happ := congrArg (List.count c) (Text.trimEnd_append cs)
  rwa [List.count_append, htrailing, Nat.add_zero] at happ

theorem count_trim (hc : Text.isBlank c = false) (cs : List Char) :
    (Text.trim cs).count c = cs.count c :=
  (count_trimEnd hc _).trans (count_trimStart hc cs)

/-- A mark of importance has none of the ends of a text in it. -/
theorem IsEnd.count_splitImportant (hc : IsEnd c) {front mark : List Char}
    (h : splitImportant cs = some (front, mark)) : front.count c = cs.count c := by
  have happ := congrArg (List.count c) (splitImportant_append h)
  have hfeed : (dropLineFeed cs).count c = cs.count c := by
    obtain ⟨b, hb, hcs⟩ := dropLineFeed_append cs
    have hcount := congrArg (List.count c) hcs
    rwa [List.count_append, count_eq_zero_of_isBlank hc.isBlank_eq hb, Nat.add_zero] at hcount
  rwa [List.count_append, List.count_eq_zero.2 (hc.not_mem_mark h), Nat.add_zero, hfeed] at happ

/-- Cleaning a value takes no end of a statement away but those in comments. -/
theorem IsEnd.count_cleanValue (hc : IsEnd c) (ts : List Token) (important : Bool) :
    (cleanValue ts important).count c = (withoutComments ts).count c := by
  have hblank := hc.isBlank_eq
  cases important with
  | false => exact count_trim hblank _
  | true =>
    rw [← count_trimEnd hblank (withoutComments ts), cleanValue, if_pos rfl, ← withoutComments]
    dsimp only
    split
    · next h => exact (count_trim hblank _).trans (hc.count_splitImportant h)
    · exact count_trim hblank _

/-- A semicolon or a closing brace is seen in a text. -/
theorem exists_isEnd {u : Token} (hu : u.kind.Marks u.raw.toList) (hstops : u.kind.stops = true)
    (hopen : u.kind ≠ .openBrace) : ∃ c, IsEnd c ∧ withoutComments [u] = [c] := by
  have hraw : ∀ c, u.raw.toList = [c] → u.kind ≠ .comment → withoutComments [u] = [c] := by
    intro c hc hkind
    rw [withoutComments_eq (by simpa using hkind)]
    simpa using hc
  generalize hk : u.kind = k at hu hstops hopen
  cases k with
  | semicolon => exact ⟨_, Or.inl rfl, hraw _ hu (by simp [hk])⟩
  | closeBrace => exact ⟨_, Or.inr rfl, hraw _ hu (by simp [hk])⟩
  | openBrace => exact absurd rfl hopen
  | _ => cases hstops

/-- A statement that says what a declaration says is cut as one. -/
theorem Statement.exists_declarationCut {q : Prelude} {content : Content} {raws : String → Raws}
    {prop value : String} {important : Bool} (h : Statement ts q content raws)
    (hcontent : content = .declaration prop value important) :
    q.opensBlock = false ∧ ∃ t r, ts = t :: r ∧ t.kind.StartsStatement ∧ q = Prelude.read [] ts ∧
      ∃ d : DeclarationCut q.tokens, d.Exact ∧ d.content = content ∧ raws = d.raws := by
  cases h with
  | atRule | rule => cases hcontent
  | declaration ht hq hopen d hd => exact ⟨hopen, _, _, rfl, ht, hq, d, hd, rfl, rfl⟩

namespace DeclarationCut

/-- What stands behind the first colon is the value with white space around it. -/
theorem behind_colon {front back : List Token} {colon : Token} (d : DeclarationCut ts)
    (hts : ts = front ++ colon :: back) (hfront : ∀ t ∈ front, t.kind ≠ .colon)
    (hcolon : colon.kind = .colon) : d.lead ++ (d.value ++ d.trail) = back := by
  have hrun : ∀ {us vs : List Token} {u : Token}, (∀ t ∈ us, t.kind ≠ .colon) → u.kind = .colon →
      (us ++ u :: vs).dropWhile (·.kind != .colon) = u :: vs := by
    intro us vs u hus hu
    refine Text.dropWhile_run (fun t ht => by simpa using hus t ht) fun t ht => ?_
    obtain rfl := Option.some.inj ht
    simpa using hu
  have htokens := congrArg (List.dropWhile (·.kind != .colon)) (hts.symm.trans d.tokens_eq)
  rw [hrun hfront hcolon, ← List.append_assoc, hrun d.noColon d.colon_kind] at htokens
  exact (List.cons.inj htokens).2.symm

/-- The ends of statements in a clean value are those behind the colon, but for comments. -/
theorem count_clean (d : DeclarationCut ts) (hts : Marked ts) (hc : IsEnd c) :
    d.clean.toList.count c = (withoutComments (d.lead ++ (d.value ++ d.trail))).count c := by
  have hnone : ∀ us : List Token, us ⊆ ts → (∀ t ∈ us, t.isSpacing = true) →
      (withoutComments us).count c = 0 := fun us hsub hus =>
    count_eq_zero_of_isBlank hc.isBlank_eq <|
      isBlank_of_mem_withoutComments (fun t ht => hts.marks t (hsub ht)) fun t ht =>
        Or.inr (by simpa [Token.isSpacing] using hus t ht)
  have hlead := hnone d.lead (fun t ht => by rw [d.tokens_eq]; simp [ht])
    fun t ht => d.spacing t (by simp [ht])
  have htrail := hnone d.trail (fun t ht => by rw [d.tokens_eq]; simp [ht])
    fun t ht => d.spacing t (by simp [ht])
  rw [clean, String.toList_ofList, hc.count_cleanValue, withoutComments_append,
    withoutComments_append, List.count_append, List.count_append, hlead, htrail, Nat.zero_add,
    Nat.add_zero]

end DeclarationCut

/-- The value of a declaration has the ends of statements that stand behind the first colon, but for
comments. -/
theorem Statement.count_value {q : Prelude} {raws : String → Raws} {prop value : String}
    {important : Bool} {front back : List Token} {colon : Token}
    (h : Statement ts q (.declaration prop value important) raws)
    (htokens : q.tokens = front ++ colon :: back) (hfront : ∀ t ∈ front, t.kind ≠ .colon)
    (hcolon : colon.kind = .colon) (hmarked : Marked q.tokens) (hc : IsEnd c) :
    q.opensBlock = false ∧ value.toList.count c = (withoutComments back).count c := by
  obtain ⟨hopen, -, -, -, -, -, d, -, hd, -⟩ := h.exists_declarationCut rfl
  obtain ⟨-, rfl, -⟩ := Content.declaration.inj hd
  exact ⟨hopen, by rw [d.count_clean hmarked hc, d.behind_colon htokens hfront hcolon]⟩

namespace DeclarationCut

variable {q : Prelude} {important : Bool} {raws : String → Raws}

/-- In a statement with all brackets closed, those of the value are closed in it, or a semicolon or
a brace stands outside of them. -/
theorem passes_value (d : DeclarationCut q.tokens) (hq : q = Prelude.read [] us)
    (hclosed : q.unclosed = false) : Prelude.passes [] (d.value.map Token.kind) = none ∨
      Prelude.passes [] (d.value.map Token.kind) = some [] := by
  have htrail : ∀ u ∈ d.trail, u.isSpacing = true := fun u hu => d.spacing u (by simp [hu])
  obtain ⟨left, hall, hleft⟩ := Prelude.passes_tokens [] us
  rw [← hq] at hall hleft
  rw [hleft.1 hclosed] at hall
  have hkinds : q.tokens.map Token.kind =
      (d.prop ++ d.gap ++ d.colon :: d.lead).map Token.kind ++
        (d.value.map Token.kind ++ d.trail.map Token.kind) := by
    conv_lhs => rw [d.tokens_eq]
    simp
  rw [hkinds, Prelude.passes_append] at hall
  obtain ⟨before, hbefore, hall⟩ := Option.bind_eq_some_iff.1 hall
  rw [Prelude.passes_append] at hall
  obtain ⟨behind, hbehind, hall⟩ := Option.bind_eq_some_iff.1 hall
  have hawaits := Prelude.awaits_nil.of_passes hbefore
  rw [Prelude.neutral_spacing htrail behind (hawaits.of_passes hbehind)] at hall
  obtain rfl := Option.some.inj hall
  exact Prelude.passes_of_append (a := before) (b := []) hawaits hbehind

/-- A semicolon or a brace in a value that only a bracket of the property kept from ending the
statement ends it if the property is a word. -/
theorem not_statement_of_stops (d : DeclarationCut q.tokens) (hq : q = Prelude.read [] us)
    (hus : Lexical us) (hnew : Lexical (d.tokensFrom w ++ (q.stop.toList ++ q.rest)))
    (hpass : Prelude.passes [] (d.value.map Token.kind) = none) :
    ¬Statement (d.tokensFrom w ++ (q.stop.toList ++ q.rest))
      (Prelude.read [] (d.tokensFrom w ++ (q.stop.toList ++ q.rest)))
      (.declaration w d.clean important) raws := by
  intro hstatement
  obtain ⟨k₁, k, k₂, hkinds, hpass₁, hstops⟩ := Prelude.exists_of_passes_eq_none hpass
  obtain ⟨v₁, v, hvalue, rfl, hv⟩ := List.map_eq_append_iff.1 hkinds
  obtain ⟨u, v₂, rfl, rfl, rfl⟩ := List.map_eq_cons_iff.1 hv
  -- the statement is read up to the end in its value
  have hfront : (Token.of .word w.toList :: (d.gap ++ d.colon :: d.lead)) ++ v₁ =
      (Token.of .word w.toList :: d.gap) ++ d.colon :: (d.lead ++ v₁) := by simp
  generalize hfrontEq : (Token.of .word w.toList :: (d.gap ++ d.colon :: d.lead)) ++ v₁ = front
    at hfront
  have hpassed : Prelude.passes [] (front.map Token.kind) = some [] := by
    rw [← hfrontEq, List.map_append, Prelude.passes_append, d.neutral_front w [] Prelude.awaits_nil]
    exact hpass₁
  have htokens : d.tokensFrom w ++ (q.stop.toList ++ q.rest) =
      front ++ u :: (v₂ ++ (d.trail ++ (q.stop.toList ++ q.rest))) := by
    rw [hfront, tokensFrom, hvalue]
    simp
  rw [htokens] at hstatement hnew
  have hmarked : Marked front := hnew.toMarked.mono (List.subset_append_left _ _)
  obtain ⟨hread, hopen⟩ : (Prelude.read [] (front ++ u :: (v₂ ++ (d.trail ++ (q.stop.toList ++
      q.rest))))).tokens = front ∧ (u.kind = .openBrace → (Prelude.read [] (front ++ u :: (v₂ ++
        (d.trail ++ (q.stop.toList ++ q.rest))))).opensBlock = true) := by
    by_cases hu : u.kind = .openBrace ∨ u.kind = .semicolon
    · rw [Prelude.read_stop hmarked.ne_ending hpassed hu]
      exact ⟨rfl, fun hk => by rw [Prelude.opensBlock, Option.any_some, hk]; rfl⟩
    · rw [Prelude.read_before hmarked.ne_ending hpassed fun t ht => ?_]
      · exact ⟨rfl, fun hk => absurd (Or.inl hk) hu⟩
      · obtain rfl := Option.some.inj ht
        generalize u.kind = k at hu hstops
        cases k <;> simp_all [Token.Kind.stops]
  have hvalueOf := fun {c : Char} => hstatement.count_value (c := c) (hread.trans hfront)
    (d.withProp w).noColon d.colon_kind (hread.symm ▸ hmarked)
  obtain ⟨c, hc, hseen⟩ := exists_isEnd (hnew.marks u (by simp)) hstops fun hk => by
    rw [hopen hk] at hvalueOf
    cases (hvalueOf (Or.inl rfl : IsEnd ';')).1
  -- which is missing in the value that is understood
  have hcount := (hvalueOf hc).2
  rw [d.count_clean (hus.toMarked.mono (Builder.tokens_subset hq)) hc, hvalue,
    List.append_cons v₁] at hcount
  simp only [withoutComments_append, List.count_append, hseen, List.count_singleton_self] at hcount
  omega

/-- A bracket that the property leaves open takes the end of the declaration into the value, if the
value is a word. -/
theorem not_statement_of_open (d : DeclarationCut q.tokens) {vs : List Token}
    (hq : q = Prelude.read [] us) (hopen : q.opensBlock = false) (hus : Lexical us)
    (hnew : Lexical (d.tokensWith vs ++ (q.stop.toList ++ q.rest)))
    (hvs : Prelude.Neutral (vs.map Token.kind)) (hw : IsLetterWord w)
    (hpass : Prelude.passes [] (d.prop.map Token.kind) ≠ some [])
    (hne : q.stop.toList ++ q.rest ≠ []) :
    ¬Statement (d.tokensWith vs ++ (q.stop.toList ++ q.rest))
      (Prelude.read [] (d.tokensWith vs ++ (q.stop.toList ++ q.rest)))
      (.declaration (rawText d.prop) w important) raws := by
  intro hstatement
  obtain ⟨left, hleft⟩ : ∃ left, Prelude.passes [] (d.prop.map Token.kind) = some left := by
    obtain ⟨left, hall, -⟩ := Prelude.passes_tokens [] us
    rw [← hq, d.tokens_eq, List.map_append, Prelude.passes_append] at hall
    obtain ⟨left, hleft, -⟩ := Option.bind_eq_some_iff.1 hall
    exact ⟨left, hleft⟩
  have hleftne : left ≠ [] := by
    rintro rfl
    exact hpass hleft
  obtain ⟨u, r, hr⟩ := List.exists_cons_of_ne_nil hne
  have hu : u.kind = .semicolon ∨ u.kind = .closeBrace := by
    subst hq
    exact Prelude.kind_behind_line hopen hus.ne_ending u (by rw [hr]; rfl)
  rw [hr] at hstatement hnew
  -- the end of the declaration is read as a part of it
  have hread : ∃ more, (Prelude.read [] (d.tokensWith vs ++ u :: r)).tokens =
      d.tokensWith vs ++ u :: more := by
    rw [Prelude.read_append (fun t ht => hnew.ne_ending t (List.mem_append_left _ ht))
      ((d.passes_tokensWith_of_neutral hvs).trans hleft)]
    exact ⟨_, congrArg (d.tokensWith vs ++ ·)
      (Prelude.tokens_read_of_open (Prelude.awaits_nil.of_passes hleft) hleftne hu r)⟩
  obtain ⟨more, hread⟩ := hread
  obtain ⟨c, hc, hseen⟩ := exists_isEnd (hnew.marks u (by simp))
    (by rcases hu with h | h <;> rw [h] <;> rfl) (by rcases hu with h | h <;> simp [h])
  have htokens : (Prelude.read [] (d.tokensWith vs ++ u :: r)).tokens =
      d.prop ++ d.gap ++ d.colon :: (d.lead ++ (vs ++ (d.trail ++ u :: more))) := by
    rw [hread, tokensWith]
    simp
  have hmarked : Marked (Prelude.read [] (d.tokensWith vs ++ u :: r)).tokens :=
    hnew.toMarked.mono (Builder.tokens_subset rfl)
  have hcount := (hstatement.count_value htokens d.noColon d.colon_kind hmarked hc).2
  have hword : w.toList.count c = 0 := List.count_eq_zero.2 fun hmem => by
    have halpha := hw.2 c hmem
    rcases hc with rfl | rfl <;> cases halpha
  rw [hword, List.append_cons d.trail] at hcount
  simp only [withoutComments_append, List.count_append, hseen, List.count_singleton_self] at hcount
  omega

/-! ## Texts -/

/-- The text in front of the value is read by itself. -/
theorem balanced_front (d : DeclarationCut q.tokens) (hq : q = Prelude.read [] us)
    (hlex : Lexes cs us) : Balanced (rawText d.prop ++ d.between) ↔
      Prelude.passes [] (d.prop.map Token.kind) = some [] := by
  have hgap : ∀ u ∈ d.gap, u.isSpacing = true := fun u hu => d.spacing u (by simp [hu])
  have hlead : ∀ u ∈ d.lead, u.isSpacing = true := fun u hu => d.spacing u (by simp [hu])
  rw [d.append_behind hq, ← List.append_assoc] at hlex
  obtain ⟨x, hx, -⟩ := hlex.exchange_colon d.colon_kind hlead .nil nofun
  have htext : (rawText d.prop ++ d.between).toList = x := by
    rw [← hx.rawText_eq, between]
    simp
  rw [← htext, List.append_nil, List.append_assoc] at hx
  have hneutral : Prelude.Neutral ((d.gap ++ d.colon :: d.lead).map Token.kind) := by
    rw [List.map_append, List.map_cons, d.colon_kind]
    exact (Prelude.neutral_spacing hgap).append
      ((Prelude.neutral_spacing hlead).cons (k := .colon) rfl)
  rw [hx.balanced_iff, List.map_append, Prelude.passes_append]
  cases hpass : Prelude.passes [] (d.prop.map Token.kind) with
  | none => simp
  | some left => rw [Option.bind_some, hneutral left (Prelude.awaits_nil.of_passes hpass)]

/-- The text from the value on is read by itself. -/
theorem balanced_back (d : DeclarationCut q.tokens) (hq : q = Prelude.read [] us)
    (hopen : q.opensBlock = false) (hlex : Lexes cs us) : Balanced (d.written ++ d.behind) ↔
      Prelude.passes [] (d.value.map Token.kind) = some [] := by
  have htrail : ∀ u ∈ d.trail, u.isSpacing = true := fun u hu => d.spacing u (by simp [hu])
  have hfeeds : FeedsEscaped q.tokens := hlex.lexical.feeds.mono (Builder.tokens_subset hq)
  have hbehind : ∀ u, (q.stop.toList ++ q.rest).head? = some u →
      u.kind = .semicolon ∨ u.kind = .closeBrace := by
    subst hq
    exact Prelude.kind_behind_line hopen hlex.lexical.ne_ending
  have happ : us = (d.prop ++ d.gap ++ d.colon :: d.lead) ++
      ((d.value ++ d.trail) ++ (q.stop.toList ++ q.rest)) := by
    conv_lhs => rw [d.append_behind hq]
    simp
  rw [happ] at hlex
  obtain ⟨x, -, hx⟩ := hlex.exists_append
  have htext : (rawText (d.value ++ d.trail)).toList = (d.written ++ d.behind).toList := by
    rw [behind, ← String.append_assoc, d.written_append_markText hfeeds, rawText_append]
  -- The value with what is behind it is cut out of the tokens: nothing is behind it, or a semicolon
  -- or a closing brace, which are barriers.
  have halone : Lexes (d.written ++ d.behind).toList (d.value ++ d.trail) := by
    obtain ⟨r, rfl, hr⟩ := hx.exists_append
    rw [htext] at hx
    have hnil : Lexes ((d.written ++ d.behind).toList ++ []) (d.value ++ d.trail ++ []) := by
      generalize q.stop.toList ++ q.rest = behind at hx hr hbehind
      cases behind with
      | nil =>
        rw [hr.eq_nil] at hx
        exact hx
      | cons u behind =>
        obtain ⟨b, v, y, rfl, -, hread, -⟩ := hr.exists_of_cons
        have hb : IsBarrier b := by
          have hmarks := Lexeme.marks_of_read hread
          rcases hbehind u rfl with hk | hk <;> rw [hk] at hmarks
          · exact Or.inr (Or.inl (List.cons.inj hmarks).1)
          · exact Or.inr (Or.inr (List.cons.inj hmarks).1)
        exact hx.barrier (p := []) hb htext closes_nil .nil (by simp)
    simpa using hnil
  rw [halone.balanced_iff, List.map_append, Prelude.passes_append]
  cases hpass : Prelude.passes [] (d.value.map Token.kind) with
  | none => simp
  | some left =>
    rw [Option.bind_some, Prelude.neutral_spacing htrail left (Prelude.awaits_nil.of_passes hpass)]

end DeclarationCut

/-! ## Declarations in a sheet -/

namespace Spot

variable {file : Option String} {k l : List Tag} {q : Prelude} {front : List Token}
  {s : Option Bool} {ss : List (Option Bool)} {p prop value : String} {important : Bool}
  {raws : String → Raws} {t : Tree}

/-- A tree with a word as the property of a declaration survives just if the brackets of the value
are closed in it. -/
theorem survives_prop_iff (h : Spot file k l q front s ss p)
    (hq : Statement us q (.declaration prop value important) raws) (hclosed : q.unclosed = false)
    (hlex : Lexes cs us) (hshows : t.All Tree.ShowsAll) (hw : IsLetterWord w)
    (htags : t.tags = .opening (.root file) {} ::
      (k ++ q.tag (.declaration w value important) (raws p) :: l)) :
    t.Survives file ↔
      Balanced (Tree.writtenValue (raws p) value ++ Tree.valueEnd (raws p) important false) := by
  obtain ⟨hopen, v, r, rfl, hv, hqr, d, hd, hcontent, rfl⟩ := hq.exists_declarationCut rfl
  obtain ⟨rfl, rfl, rfl⟩ := Content.declaration.inj hcontent
  have htext :
      Tree.writtenValue (d.raws p) d.clean ++ Tree.valueEnd (d.raws p) d.mark.isSome false =
      d.written ++ d.behind := by
    rw [d.writtenValue_raws, d.valueEnd_raws, if_neg Bool.false_ne_true, String.append_empty]
  rw [htext, d.balanced_back hqr hopen hlex]
  constructor
  · intro hsurvives
    by_contra hpass
    have hnone := (d.passes_value hqr hclosed).resolve_right hpass
    have hlexes := d.lexes_tokensFrom hqr hlex hw
    have hwritten := d.text_tokensFrom hqr hopen hlex.lexical w p
    obtain ⟨raws', hstatement⟩ := h.exists_statement_of_survives hshows htags rfl hlexes
      startsStatement_word (by rw [Prelude.tag, if_neg (by simp [hopen])]; exact hwritten) hsurvives
    exact d.not_statement_of_stops hqr hlex.lexical hlexes.lexical hnone hstatement
  · intro hpass
    exact (h.survives_iff hshows htags rfl (d.restates_prop hd hqr hopen hlex hw hpass)).2 rfl

/-- A tree with a word as the value of a declaration survives if the brackets of the property are
closed in it, and only then unless nothing stands behind the declaration. -/
theorem survives_value (h : Spot file k l q front s ss p)
    (hq : Statement us q (.declaration prop value important) raws) (hlex : Lexes cs us)
    (hshows : t.All Tree.ShowsAll) (hw : IsLetterWord w) (hne : w ≠ value)
    (htags : t.tags = .opening (.root file) {} ::
      (k ++ q.tag (.declaration prop w important) (raws p) :: l)) :
    (Balanced (prop ++ (raws p).between.getD "") → t.Survives file) ∧
      (t.Survives file → Balanced (prop ++ (raws p).between.getD "") ∨
        q.stop.toList ++ q.rest = []) := by
  obtain ⟨hopen, v, r, rfl, hv, hqr, d, hd, hcontent, rfl⟩ := hq.exists_declarationCut rfl
  obtain ⟨rfl, rfl, rfl⟩ := Content.declaration.inj hcontent
  have hbetween : (d.raws p).between.getD "" = d.between := rfl
  rw [hbetween, d.balanced_front hqr hlex]
  constructor
  · intro hpass
    obtain ⟨us, hnew⟩ := d.restates_value hd hv hqr hopen hlex hw hne hpass
    exact (h.survives_iff hshows htags rfl hnew).2 rfl
  · intro hsurvives
    by_contra! hnot
    obtain ⟨hpass, hbehind⟩ := hnot
    obtain ⟨vs, hvsne, hvs, hneutral, -, -⟩ := d.exists_newValue hw
    have hraw : rawText vs = w ++ d.markText.getD "" := by
      rw [← String.toList_inj]
      exact hvs.rawText_eq
    have hlexes := d.lexes_tokensWith hqr hopen hlex hvs hvsne
    have hwritten := d.text_tokensWith hqr hopen hlex.lexical
      (hvs.lexes.lexical.mono (List.subset_append_left _ _)) hvs.head hvs.last hraw hne p
    have hold (raws' : String → Raws) : ¬Statement (d.tokensWith vs ++ (q.stop.toList ++ q.rest))
        (Prelude.read [] (d.tokensWith vs ++ (q.stop.toList ++ q.rest)))
        (.declaration (rawText d.prop) w d.mark.isSome) raws' :=
      d.not_statement_of_open hqr hopen hlex.lexical hlexes.lexical hneutral hw hpass hbehind
    obtain ⟨r', hr'⟩ := d.exists_tokensWith_eq hqr vs
    rw [hr', List.cons_append] at hlexes hwritten hold
    obtain ⟨raws', hstatement⟩ := h.exists_statement_of_survives hshows htags rfl hlexes hv
      (by rw [Prelude.tag, if_neg (by simp [hopen])]; exact hwritten) hsurvives
    exact hold raws' hstatement

end Spot

end PixelUnit.Sheet
