import PixelUnit.Proofs.Sheet.LetterWords
import PixelUnit.Proofs.Sheet.Survival

/-!
# Statements with new fields

A statement is written with a word of letters in the place of its selector, its parameters, its
property or its value, between what was written around the old one. What is read then is the
statement with the new field: for a selector always (`Statement.restates_selector`), for parameters
if white space stands in front of them (`Statement.restates_params`; else the word belongs to the
name, `Statement.restates_name`), and for a property or a value if the other one of the two leaves
no bracket open (`DeclarationCut.restates_prop`, `DeclarationCut.restates_value`).
-/

namespace PixelUnit.Sheet

namespace Prelude

/-- A statement ends before a brace or a semicolon. -/
theorem kind_behind {ts : List Token} (hts : ∀ t ∈ ts, t.kind ≠ .ending) :
    ∀ t, ((read [] ts).stop.toList ++ (read [] ts).rest).head? = some t →
      t.kind = .semicolon ∨ t.kind = .openBrace ∨ t.kind = .closeBrace := by
  intro t ht
  rcases stop_cases [] ts with ⟨u, hu, hkind⟩ | ⟨u, hu, hkind⟩ | ⟨hu, hrest⟩
  · rw [hu] at ht
    obtain rfl := Option.some.inj ht
    exact Or.inr (Or.inl hkind)
  · rw [hu] at ht
    obtain rfl := Option.some.inj ht
    exact Or.inl hkind
  · rw [hu, Option.toList_none, List.nil_append] at ht
    refine Or.inr (Or.inr ((hrest t ht).resolve_right (hts t ?_)))
    rw [← taken_append_rest [] ts]
    exact List.mem_append_right _ (List.mem_of_mem_head? ht)

/-- Words end in front of the white space at the end of a statement. -/
theorem separates_spacing {ts us : List Token} (hts : ∀ t ∈ ts, t.kind ≠ .ending)
    (hus : ∀ t ∈ us, t.isSpacing = true) :
    ∀ t, (us ++ ((read [] ts).stop.toList ++ (read [] ts).rest)).head? = some t →
      t.kind.Separates := by
  intro t ht
  cases us with
  | nil => rcases kind_behind hts t ht with h | h | h <;> simp [Token.Kind.Separates, h]
  | cons u us =>
    obtain rfl := Option.some.inj ht
    exact Or.inl (by simpa [Token.isSpacing] using hus u List.mem_cons_self)

/-- Words and white space, up to the end of another statement. -/
theorem read_words {ts us between : List Token} (hts : ∀ t ∈ ts, t.kind ≠ .ending)
    (hus : ∀ t ∈ us, t.kind = .word) (hbetween : ∀ t ∈ between, t.isSpacing = true) :
    read [] (us ++ (between ++ ((read [] ts).stop.toList ++ (read [] ts).rest))) =
      ⟨us ++ between, (read [] ts).stop, (read [] ts).rest, false⟩ := by
  have hkinds : ∀ t ∈ us ++ between, t.kind = .word ∨ t.kind = .spacing := by
    intro t ht
    rcases List.mem_append.1 ht with ht | ht
    · exact Or.inl (hus t ht)
    · exact Or.inr (by simpa [Token.isSpacing] using hbetween t ht)
  rw [← List.append_assoc]
  refine read_exchange (fun t ht => ?_) (Neutral.of_not_delimits (fun k hk => ?_) []
    awaits_nil) (closesNext_rest hts)
  · rcases hkinds t ht with h | h <;> simp [h]
  · obtain ⟨t, ht, rfl⟩ := List.mem_map.1 hk
    rcases hkinds t ht with h | h <;> rw [h] <;> rfl

/-- White space behind words is split off. -/
theorem splitTrailing_words {us between : List Token} (hus : ∀ t ∈ us, t.kind = .word)
    (hbetween : ∀ t ∈ between, t.isSpacing = true) :
    splitTrailing (us ++ between) = (us, between) := by
  refine splitTrailing_eq (fun t ht => ?_) hbetween
  rw [hus t (List.mem_of_getLast? ht)]
  decide

/-- White space is neutral. -/
theorem neutral_spacing {us : List Token} (hus : ∀ t ∈ us, t.isSpacing = true) :
    Neutral (us.map Token.kind) := by
  refine Neutral.of_not_delimits fun k hk => ?_
  obtain ⟨t, ht, rfl⟩ := List.mem_map.1 hk
  have hkind : t.kind = .spacing := by simpa [Token.isSpacing] using hus t ht
  rw [hkind]
  rfl

end Prelude

/-! ## Statements that end as before -/

/-- The tag of a statement, or the one at the start of the block that it opens. -/
def Prelude.tag (q : Prelude) (content : Content) (raws : Raws) : Tag :=
  if q.opensBlock then .opening content raws else .leaf content raws

/-- Tokens are the text of a statement that says `content`, as one ends that was written with
`raws`; what is read then is `content'`. -/
structure Restates (q : Prelude) (raws : String → Raws) (content content' : Content)
    (ts : List Token) : Prop where
  lexes : Lexes (rawText ts).toList ts
  statement : ∃ q' raws', Statement ts q' content' raws' ∧ q'.unclosed = false ∧
    q'.stop = q.stop ∧ q'.rest = q.rest ∧ ∀ before semicolon,
      (q.tag content' (raws' before)).text semicolon = (q.tag content (raws before)).text semicolon

variable {w : String} {cs : List Char} {ts : List Token} {q : Prelude} {raws : String → Raws}

theorem Lexes.rawText_lexes (h : Lexes cs ts) : Lexes (rawText ts).toList ts := by
  rwa [h.rawText_eq]

theorem startsStatement_word : Token.Kind.StartsStatement .word := by
  unfold Token.Kind.StartsStatement
  decide

namespace Statement

/-- What stands behind a selector or parameters is read by itself, and words end before it. -/
theorem exists_behind {pre us : List Token} (hq : q = Prelude.read [] us)
    (hlex : Lexes cs (pre ++ us)) : ∃ x, Lexes x
      ((splitTrailing q.tokens).2 ++ (q.stop.toList ++ q.rest)) ∧ Closes x := by
  have hus : ∀ t ∈ us, t.kind ≠ .ending := fun t ht =>
    hlex.lexical.ne_ending t (List.mem_append_right pre ht)
  have happ := Prelude.taken_append_rest [] us
  rw [← hq, Prelude.taken, ← splitTrailing_append q.tokens] at happ
  rw [← happ, List.append_assoc, List.append_assoc, ← List.append_assoc] at hlex
  obtain ⟨x, -, hx⟩ := hlex.exists_append
  refine ⟨x, hx, ?_⟩
  subst hq
  exact hx.closes (Prelude.separates_spacing hus (splitTrailing_spacing _))

/-- A rule with its selector and the white space behind that. -/
theorem rule_of_read {t : Token} {r sel between rest : List Token} {stop : Option Token}
    (ht : t.kind.StartsStatement)
    (hread : Prelude.read [] (t :: r) = ⟨sel ++ between, stop, rest, false⟩)
    (hcut : splitTrailing (sel ++ between) = (sel, between))
    (hopen : stop.any (·.kind == .openBrace) = true) :
    Statement (t :: r) ⟨sel ++ between, stop, rest, false⟩ (.rule (rawText sel))
      fun before => { before := some before, between := some (rawText between) } := by
  have h := Statement.rule ht hread.symm hopen
  simpa only [Builder.ruleRaws, hcut] using h

/-- An at-rule with its parameters and the white space around them. -/
theorem atRule_of_read {t : Token} {gap r params between rest : List Token} {stop : Option Token}
    (ht : t.kind = .atKeyword) (hgap : ∀ u ∈ gap, u.isSpacing = true)
    (hr : ∀ u ∈ r.head?, u.isSpacing = false)
    (hread : Prelude.read [] r = ⟨params ++ between, stop, rest, false⟩)
    (hcut : splitTrailing (params ++ between) = (params, between)) :
    Statement (t :: (gap ++ r)) ⟨params ++ between, stop, rest, false⟩
      (.atRule t.keyword (rawText params) (stop.any (·.kind == .openBrace)))
      fun before =>
        { before := some before
          afterName := some (rawText gap)
          between := some (rawText between) } := by
  have h := atRule_behind ht hgap hr hread.symm
  simp only [Builder.atRuleRaws, hcut] at h
  exact h

/-- A rule with a word as its selector. -/
theorem restates_selector {selector : String} (h : Statement ts q (.rule selector) raws)
    (hlex : Lexes cs ts) (hw : IsLetterWord w) : ∃ us, Restates q raws (.rule w) (.rule w) us := by
  cases h with
  | @rule t r _ ht hq hopen =>
    obtain ⟨x, hx, hcloses⟩ := exists_behind hq (by rwa [List.nil_append])
    have hread := Prelude.read_words hlex.lexical.ne_ending (kind_word w)
      (splitTrailing_spacing q.tokens)
    rw [← hq] at hread
    have hnew := rule_of_read startsStatement_word hread
      (Prelude.splitTrailing_words (kind_word w) (splitTrailing_spacing q.tokens)) hopen
    rw [rawText_word] at hnew
    exact ⟨_, (hw.lexes_append hcloses hx).rawText_lexes, _, _, hnew, rfl, rfl, rfl, fun _ _ => rfl⟩

/-- A word as the parameters of an at-rule that has white space in front of them. -/
theorem restates_params {name params : String} {body : Bool}
    (h : Statement ts q (.atRule name params body) raws) (hlex : Lexes cs ts)
    (hafter : (raws "").afterName ≠ some "") (hw : IsLetterWord w) :
    ∃ us, Restates q raws (.atRule name w body) (.atRule name w body) us := by
  cases h with
  | @atRule t r _ ht hq =>
    have hlex' : Lexes cs (t :: (r.takeWhile Token.isSpacing ++ r.dropWhile Token.isSpacing)) := by
      rwa [List.takeWhile_append_dropWhile]
    obtain ⟨x, hx, hcloses⟩ := exists_behind hq
      (show Lexes cs ((t :: r.takeWhile Token.isSpacing) ++ _) from hlex')
    have hdrop : ∀ u ∈ r.dropWhile Token.isSpacing, u.kind ≠ .ending := fun u hu =>
      hlex.lexical.ne_ending u (Builder.dropWhile_subset_cons t r hu)
    have hgap : ∀ u ∈ r.takeWhile Token.isSpacing, u.isSpacing = true := fun _ =>
      List.mem_takeWhile_imp
    -- The word takes the place of the parameters in the statement.
    have hread := Prelude.read_words hdrop (kind_word w) (splitTrailing_spacing q.tokens)
    rw [← hq] at hread
    have hnew := atRule_of_read ht hgap (by rintro u ⟨⟩; rfl) hread
      (Prelude.splitTrailing_words (kind_word w) (splitTrailing_spacing q.tokens))
    rw [rawText_word] at hnew
    obtain ⟨c, u, s, -, htok, hkey, hs⟩ := hlex'.exists_of_cons
    obtain ⟨y, rfl, -⟩ := hs.exists_append
    have hbehind := hs.exchange_spacing rfl hgap (hw.lexes_append hcloses hx) (hw.head_isSpacing x)
    have hne : r.takeWhile Token.isSpacing ≠ [] := by
      intro hnil
      exact hafter (congrArg (fun gap => some (rawText gap)) hnil)
    -- The at-keyword ends before the white space, of which there is some.
    have hcloses' : Closes ((rawText (r.takeWhile Token.isSpacing)).toList ++ (w.toList ++ x)) := by
      refine hbehind.closes fun v hv => ?_
      rw [List.head?_append_of_ne_nil _ hne] at hv
      exact Or.inl (by simpa [Token.isSpacing] using hgap v (List.mem_of_mem_head? hv))
    have hlexes : Lexes (c :: (u ++ ((rawText (r.takeWhile Token.isSpacing)).toList ++
        (w.toList ++ x)))) (t :: (r.takeWhile Token.isSpacing ++ .of .word w.toList ::
          ((splitTrailing q.tokens).2 ++ (q.stop.toList ++ q.rest)))) := by
      rw [htok]
      refine .cons (Lexeme.read_congr ?_ hkey ⟨?_, ?_, fun _ =>
        endsIdent_of_endsWord hcloses'.endsWord⟩) hbehind
      · intro hnil
        exact hne (hs.ne_nil_of_rawText (List.append_eq_nil_iff.1 hnil).1)
      · exact fun hk => by rw [ht] at hk; cases hk
      · exact fun hk => by rw [ht] at hk; cases hk
    exact ⟨_, hlexes.rawText_lexes, _, _, hnew, rfl, rfl, rfl, fun _ _ => rfl⟩

/-- A word as the parameters of any other at-rule belongs to its name. -/
theorem restates_name {name params : String} {body : Bool}
    (h : Statement ts q (.atRule name params body) raws) (hlex : Lexes cs ts)
    (hafter : (raws "").afterName = some "") (hw : IsLetterWord w) :
    ∃ us, Restates q raws (.atRule name w body) (.atRule (name ++ w) "" body) us := by
  cases h with
  | @atRule t r _ ht hq =>
    have hlex' : Lexes cs (t :: (r.takeWhile Token.isSpacing ++ r.dropWhile Token.isSpacing)) := by
      rwa [List.takeWhile_append_dropWhile]
    obtain ⟨x, hx, hcloses⟩ := exists_behind hq
      (show Lexes cs ((t :: r.takeWhile Token.isSpacing) ++ _) from hlex')
    have hdrop : ∀ u ∈ r.dropWhile Token.isSpacing, u.kind ≠ .ending := fun u hu =>
      hlex.lexical.ne_ending u (Builder.dropWhile_subset_cons t r hu)
    obtain ⟨c, u, s, -, htok, hkey, hs⟩ := hlex'.exists_of_cons
    have hnil : r.takeWhile Token.isSpacing = [] := by
      obtain ⟨y, rfl, -⟩ := hs.exists_append
      refine hs.ne_nil_of_rawText ?_
      have htext : rawText (r.takeWhile Token.isSpacing) = "" := Option.some.inj hafter
      rw [htext]
      rfl
    rw [ht] at hkey htok
    obtain ⟨rfl, -⟩ := Lexeme.keyword_of_read hkey
    have hlexes : Lexes ('@' :: (u ++ w.toList ++ x)) (.of .atKeyword ('@' :: (u ++ w.toList)) ::
        ((splitTrailing q.tokens).2 ++ (q.stop.toList ++ q.rest))) :=
      .cons (Lexeme.read_keyword_front hkey (fun d hd => isIdent_of_isAlpha (hw.2 d hd))
        hcloses.endsWord) hx
    -- the white space behind the parameters is behind the name now
    have hread : Prelude.read [] ([] ++ ([] ++ (q.stop.toList ++ q.rest))) =
        ⟨[] ++ [], q.stop, q.rest, false⟩ := by
      subst hq
      exact Prelude.read_words hdrop (List.forall_mem_nil _) (List.forall_mem_nil _)
    have hstop : ∀ v ∈ ([] ++ ([] ++ (q.stop.toList ++ q.rest))).head?, v.isSpacing = false := by
      intro v hv
      subst hq
      rcases Prelude.kind_behind hdrop v hv with h | h | h <;> simp [Token.isSpacing, h]
    have hnew := atRule_of_read (t := .of .atKeyword ('@' :: (u ++ w.toList))) rfl
      (splitTrailing_spacing q.tokens) hstop hread rfl
    have hname : (Token.of .atKeyword ('@' :: (u ++ w.toList))).keyword = t.keyword ++ w := by
      rw [htok]
      simp [Token.keyword, Token.of, String.ofList_append]
    rw [hname] at hnew
    refine ⟨_, hlexes.rawText_lexes, _, _, hnew, rfl, rfl, rfl, fun before semicolon => ?_⟩
    simp only [Prelude.tag]
    split
    · simp [Tag.text, Frame.head, Tree.atRuleHead, Builder.atRuleRaws, hnil, String.append_assoc]
    · next hopen =>
      rw [Bool.not_eq_true] at hopen
      simp [Tag.text, Tree.text, Tree.atRuleHead, Builder.atRuleRaws, hnil, hopen,
        String.append_assoc]

end Statement

/-! ## Declarations -/

theorem Tree.text_declaration (prop value : String) (important semicolon : Bool) (raws : Raws) :
    (node (.declaration prop value important) raws []).text semicolon =
      declarationText raws prop value important semicolon := by
  rw [text]

/-- A semicolon that ends a statement is written as one. -/
theorem Prelude.rawText_stop {ts : List Token} (hts : Lexical ts)
    (hopen : (read [] ts).opensBlock = false) :
    rawText (read [] ts).stop.toList = if (read [] ts).endsInSemicolon then ";" else "" := by
  rcases endsInSemicolon_or_closesNext hopen hts.ne_ending with
    ⟨u, hu, hkind, hends⟩ | ⟨hu, hends, -⟩
  · have hmem : u ∈ ts := by
      rw [← taken_append_rest [] ts, taken, hu]
      simp
    rw [hu, hends]
    simp [(hts.raw_eq hmem).2.2 hkind]
  · rw [hu, hends]
    rfl

namespace DeclarationCut

/-- The tokens of a declaration with a word as its property. -/
def tokensFrom (d : DeclarationCut ts) (w : String) : List Token :=
  .of .word w.toList :: (d.gap ++ d.colon :: (d.lead ++ (d.value ++ d.trail)))

theorem singleWord_ne_nil (w : String) : [Token.of .word w.toList] ≠ [] :=
  List.cons_ne_nil _ _

/-- The cut of a declaration with a word as its property. -/
def withProp (d : DeclarationCut ts) (w : String) : DeclarationCut (d.tokensFrom w) where
  prop := [.of .word w.toList]
  gap := d.gap
  colon := d.colon
  lead := d.lead
  value := d.value
  trail := d.trail
  tokens_eq := rfl
  prop_ne_nil := singleWord_ne_nil w
  colon_kind := d.colon_kind
  noColon := List.forall_mem_cons.2 ⟨nofun, fun t ht => d.noColon t (List.mem_append_right _ ht)⟩
  spacing := d.spacing
  value_head := d.value_head
  value_last := d.value_last

theorem Exact.withProp {d : DeclarationCut ts} (hd : d.Exact) (w : String) :
    (d.withProp w).Exact :=
  ⟨by rintro t ⟨⟩; exact nofun, hd.trail_eq_nil⟩

theorem content_withProp (d : DeclarationCut ts) (w : String) :
    (d.withProp w).content = .declaration w d.clean d.mark.isSome := by
  show Content.declaration (rawText [.of .word w.toList]) d.clean d.mark.isSome = _
  rw [rawText_word]

variable {us : List Token} (d : DeclarationCut q.tokens)

/-- The tokens of a declaration with a word as its property are read from their text. -/
theorem lexes_tokensFrom (hq : q = Prelude.read [] us) (hlex : Lexes cs us) (hw : IsLetterWord w) :
    Lexes (rawText (d.tokensFrom w ++ (q.stop.toList ++ q.rest))).toList
      (d.tokensFrom w ++ (q.stop.toList ++ q.rest)) := by
  rw [d.append_behind hq] at hlex
  obtain ⟨x, rfl, hx⟩ := hlex.exists_append
  have hcloses : Closes x := by
    refine hx.closes fun t ht => ?_
    have hgap : ∀ u ∈ d.gap, u.isSpacing = true := fun u hu => d.spacing u (by simp [hu])
    generalize d.gap = gap at ht hgap
    cases gap with
    | nil =>
      obtain rfl := Option.some.inj ht
      simp [Token.Kind.Separates, d.colon_kind]
    | cons u gap =>
      obtain rfl := Option.some.inj ht
      exact Or.inl (by simpa [Token.isSpacing] using hgap u List.mem_cons_self)
  have hnew := (hw.lexes_append hcloses hx).rawText_lexes
  simpa [tokensFrom] using hnew

/-- The tokens of a declaration with a new value are read from their text. -/
theorem lexes_tokensWith {new : List Char} {vs : List Token} (hq : q = Prelude.read [] us)
    (hopen : q.opensBlock = false) (hlex : Lexes cs us) (hvs : ReadsAlone new vs) (hne : vs ≠ []) :
    Lexes (rawText (d.tokensWith vs ++ (q.stop.toList ++ q.rest))).toList
      (d.tokensWith vs ++ (q.stop.toList ++ q.rest)) := by
  have hts := hlex.lexical.ne_ending
  rw [d.append_behind hq] at hlex
  have hlead : ∀ t ∈ d.lead, t.isSpacing = true := fun t ht => d.spacing t (by simp [ht])
  have htrail : ∀ t ∈ d.trail, t.isSpacing = true := fun t ht => d.spacing t (by simp [ht])
  obtain ⟨x, hx⟩ : ∃ x, Lexes x (d.trail ++ (q.stop.toList ++ q.rest)) := by
    have hcut : Lexes cs ((d.prop ++ d.gap ++ d.colon :: (d.lead ++ d.value)) ++
        (d.trail ++ (q.stop.toList ++ q.rest))) := by simpa using hlex
    obtain ⟨x, -, hx⟩ := hcut.exists_append
    exact ⟨x, hx⟩
  have hcloses : Closes x := by
    subst hq
    exact hx.closes (Prelude.separates_spacing hts htrail)
  have hvalue : Lexes cs ((d.prop ++ d.gap) ++ d.colon :: (d.lead ++ (d.value ++
      (d.trail ++ (q.stop.toList ++ q.rest))))) := by simpa using hlex
  obtain ⟨cs', hcs', -⟩ := hvalue.exchange d.colon_kind hlead hvs hne hx hcloses
  have hnew := hcs'.rawText_lexes
  simpa [tokensWith] using hnew

/-- A declaration with a new property is written as its tokens are. -/
theorem text_tokensFrom (hq : q = Prelude.read [] us) (hopen : q.opensBlock = false)
    (hus : Lexical us) (w before : String) :
    (Tree.node (.declaration w d.clean d.mark.isSome) (d.raws before) []).text q.endsInSemicolon ++
      rawText q.rest = before ++ rawText (d.tokensFrom w ++ (q.stop.toList ++ q.rest)) := by
  have hjoins : (d.withProp w).Joins :=
    d.written_append_markText (hus.feeds.mono (Builder.tokens_subset hq))
  have htext := (d.withProp w).text_node hjoins before q.endsInSemicolon
  rw [content_withProp] at htext
  have hstop : rawText q.stop.toList = if q.endsInSemicolon then ";" else "" := by
    subst hq
    exact Prelude.rawText_stop hus hopen
  have hraws : (d.withProp w).raws before = d.raws before := rfl
  rw [hraws] at htext
  rw [htext, rawText_append, rawText_append, hstop]
  simp only [String.append_assoc]

/-- A declaration with a new value is written as its tokens are. -/
theorem text_tokensWith {vs : List Token} (hq : q = Prelude.read [] us)
    (hopen : q.opensBlock = false) (hus : Lexical us) (hvs : Lexical vs)
    (hhead : ∀ t, vs.head? = some t → t.kind ≠ .spacing)
    (hlast : ∀ t, vs.getLast? = some t → t.kind ≠ .spacing)
    (hraw : rawText vs = w ++ d.markText.getD "") (hne : w ≠ d.clean) (before : String) :
    (Tree.node (.declaration (rawText d.prop) w d.mark.isSome) (d.raws before) []).text
      q.endsInSemicolon ++ rawText q.rest =
        before ++ rawText (d.tokensWith vs ++ (q.stop.toList ++ q.rest)) := by
  have hfeeds : FeedsEscaped (d.tokensWith vs) :=
    d.forall_mem_tokensWith (hus.feeds.mono (Builder.tokens_subset hq)) hvs.feeds
  have htext := (d.exchange hhead hlast).text_node
    ((d.exchange hhead hlast).written_append_markText hfeeds) before q.endsInSemicolon
  have hstop : rawText q.stop.toList = if q.endsInSemicolon then ";" else "" := by
    subst hq
    exact Prelude.rawText_stop hus hopen
  have hsame : Tree.declarationText ((d.exchange hhead hlast).raws before) _ _ _ _ = _ :=
    d.declarationText_exchange hfeeds hne hraw q.endsInSemicolon
  rw [content, Tree.text_declaration] at htext
  rw [Tree.text_declaration, ← hsame, rawText_append, rawText_append, hstop]
  refine (congrArg (· ++ rawText q.rest) htext).trans ?_
  simp only [String.append_assoc]

/-- A declaration that is cut otherwise ends as before if its tokens leave no bracket open. -/
theorem restates_of_passes {vs : List Token} {content : Content} {raws : String → Raws}
    (hq : q = Prelude.read [] us) (hopen : q.opensBlock = false) (hus : ∀ t ∈ us, t.kind ≠ .ending)
    (d' : DeclarationCut vs) (hd' : d'.Exact)
    (hlex : Lexes (rawText (vs ++ (q.stop.toList ++ q.rest))).toList
      (vs ++ (q.stop.toList ++ q.rest)))
    (hstart : ∀ t ∈ vs.head?, t.kind.StartsStatement)
    (hpass : Prelude.passes [] (vs.map Token.kind) = some [])
    (htext : ∀ before semicolon, (Tree.node d'.content (d'.raws before) []).text semicolon =
      (Tree.node content (raws before) []).text semicolon) :
    Restates q raws content d'.content (vs ++ (q.stop.toList ++ q.rest)) := by
  have hvs : ∀ t ∈ vs, t.kind ≠ .ending := fun t ht =>
    hlex.lexical.ne_ending t (List.mem_append_left _ ht)
  have hread : Prelude.read [] (vs ++ (q.stop.toList ++ q.rest)) = ⟨vs, q.stop, q.rest, false⟩ := by
    subst hq
    exact Prelude.read_exchange hvs hpass (Prelude.closesNext_rest hus)
  obtain ⟨t, r, rfl⟩ := List.exists_cons_of_ne_nil d'.tokens_ne_nil
  refine ⟨hlex, _, _, .declaration (hstart t rfl) hread.symm hopen d' hd', rfl, rfl, rfl,
    fun before semicolon => ?_⟩
  simp only [Prelude.tag, hopen, Bool.false_eq_true, if_false]
  exact htext before semicolon

variable {t : Token} {r : List Token}

/-- There are no brackets in a word and the white space on both sides of a colon. -/
theorem neutral_front (d : DeclarationCut ts) (w : String) :
    Prelude.Neutral ((.of .word w.toList :: (d.gap ++ d.colon :: d.lead)).map Token.kind) := by
  have hgap : ∀ u ∈ d.gap, u.isSpacing = true := fun u hu => d.spacing u (by simp [hu])
  have hlead : ∀ u ∈ d.lead, u.isSpacing = true := fun u hu => d.spacing u (by simp [hu])
  rw [List.map_cons, List.map_append, List.map_cons, d.colon_kind]
  exact ((Prelude.neutral_spacing hgap).append
    ((Prelude.neutral_spacing hlead).cons (k := .colon) rfl)).cons (k := .word) rfl

/-- The brackets of a statement with a word as its property are those of the value. -/
theorem passes_tokensFrom (d : DeclarationCut ts) (w : String) :
    Prelude.passes [] ((d.tokensFrom w).map Token.kind) =
      Prelude.passes [] (d.value.map Token.kind) := by
  have htrail : ∀ u ∈ d.trail, u.isSpacing = true := fun u hu => d.spacing u (by simp [hu])
  have hkinds : (d.tokensFrom w).map Token.kind =
      (.of .word w.toList :: (d.gap ++ d.colon :: d.lead)).map Token.kind ++
        (d.value.map Token.kind ++ d.trail.map Token.kind) := by
    simp [tokensFrom]
  rw [hkinds, Prelude.passes_append, d.neutral_front w [] Prelude.awaits_nil, Option.bind_some,
    Prelude.passes_append]
  cases hpass : Prelude.passes [] (d.value.map Token.kind) with
  | none => rfl
  | some left =>
    exact Prelude.neutral_spacing htrail left (Prelude.awaits_nil.of_passes hpass)

/-- A word as the property of a declaration whose value leaves no bracket open. -/
theorem restates_prop (hd : d.Exact) (hq : q = Prelude.read [] us) (hopen : q.opensBlock = false)
    (hlex : Lexes cs us) (hw : IsLetterWord w)
    (hpass : Prelude.passes [] (d.value.map Token.kind) = some []) :
    Restates q d.raws (.declaration w d.clean d.mark.isSome) (.declaration w d.clean d.mark.isSome)
      (d.tokensFrom w ++ (q.stop.toList ++ q.rest)) := by
  rw [← d.content_withProp w]
  exact restates_of_passes hq hopen hlex.lexical.ne_ending (d.withProp w) (hd.withProp w)
    (d.lexes_tokensFrom hq hlex hw) (by rintro t ⟨⟩; exact startsStatement_word)
    ((d.passes_tokensFrom w).trans hpass) fun _ _ => rfl

/-- The brackets of a statement with words as its value are those of the property. -/
theorem passes_tokensWith_of_neutral (d : DeclarationCut ts) {vs : List Token}
    (hvs : Prelude.Neutral (vs.map Token.kind)) :
    Prelude.passes [] ((d.tokensWith vs).map Token.kind) =
      Prelude.passes [] (d.prop.map Token.kind) := by
  have hgap : ∀ u ∈ d.gap, u.isSpacing = true := fun u hu => d.spacing u (by simp [hu])
  have hlead : ∀ u ∈ d.lead, u.isSpacing = true := fun u hu => d.spacing u (by simp [hu])
  have htrail : ∀ u ∈ d.trail, u.isSpacing = true := fun u hu => d.spacing u (by simp [hu])
  have hbehind : Prelude.Neutral ((d.gap ++ d.colon :: (d.lead ++ (vs ++ d.trail))).map
      Token.kind) := by
    rw [List.map_append, List.map_cons, List.map_append, List.map_append, d.colon_kind]
    exact (Prelude.neutral_spacing hgap).append (((Prelude.neutral_spacing hlead).append
      (hvs.append (Prelude.neutral_spacing htrail))).cons (k := .colon) rfl)
  rw [tokensWith, List.map_append, Prelude.passes_append]
  cases hpass : Prelude.passes [] (d.prop.map Token.kind) with
  | none => rfl
  | some left => exact hbehind left (Prelude.awaits_nil.of_passes hpass)

/-- A word as the value of a declaration is read as tokens that are understood as it. -/
theorem exists_newValue (d : DeclarationCut ts) (hw : IsLetterWord w) : ∃ vs, vs ≠ [] ∧
    ReadsAlone (w ++ d.markText.getD "").toList vs ∧ Prelude.Neutral (vs.map Token.kind) ∧
      (splitImportant (rawText vs).toList).isSome = d.mark.isSome ∧
      cleanValue vs d.mark.isSome = w.toList := by
  obtain ⟨vs, hvs, hne, hkinds, hmark, hclean⟩ := hw.exists_value (rawText d.value).toList
  refine ⟨vs, hne, ?_, Prelude.Neutral.of_not_delimits fun k hk => ?_, hmark, hclean⟩
  · rw [String.toList_append]
    convert hvs using 2
    rw [markText, mark]
    cases splitImportant (rawText d.value).toList <;> simp
  · obtain ⟨t, ht, rfl⟩ := List.mem_map.1 hk
    rcases hkinds t ht with h | h <;> rw [h] <;> rfl

/-- A declaration with a new value starts as before. -/
theorem exists_tokensWith_eq (d : DeclarationCut q.tokens) (hq : q = Prelude.read [] (t :: r))
    (vs : List Token) : ∃ r', d.tokensWith vs = t :: r' := by
  have hsplit := d.append_behind hq
  obtain ⟨v, prop, hprop⟩ := List.exists_cons_of_ne_nil d.prop_ne_nil
  rw [hprop] at hsplit
  rw [tokensWith, hprop, (List.cons.inj hsplit).1]
  exact ⟨_, rfl⟩

/-- A word as the value of a declaration whose property leaves no bracket open. -/
theorem restates_value (hd : d.Exact) (ht : t.kind.StartsStatement)
    (hq : q = Prelude.read [] (t :: r)) (hopen : q.opensBlock = false) (hlex : Lexes cs (t :: r))
    (hw : IsLetterWord w) (hne : w ≠ d.clean)
    (hpass : Prelude.passes [] (d.prop.map Token.kind) = some []) :
    ∃ us, Restates q d.raws (.declaration (rawText d.prop) w d.mark.isSome)
      (.declaration (rawText d.prop) w d.mark.isSome) us := by
  obtain ⟨vs, hvsne, hvs, hneutral, hmark, hclean⟩ := d.exists_newValue hw
  have hraw : rawText vs = w ++ d.markText.getD "" := by
    rw [← String.toList_inj]
    exact hvs.rawText_eq
  have hcontent : (d.exchange hvs.head hvs.last).content =
      .declaration (rawText d.prop) w d.mark.isSome := by
    show Content.declaration (rawText d.prop)
      (String.ofList (cleanValue vs (splitImportant (rawText vs).toList).isSome))
      (splitImportant (rawText vs).toList).isSome = _
    rw [hmark, hclean, String.ofList_toList]
  have hlexes := d.lexes_tokensWith hq hopen hlex hvs hvsne
  have hfeeds : FeedsEscaped (d.tokensWith vs) :=
    d.forall_mem_tokensWith (hlex.lexical.feeds.mono (Builder.tokens_subset hq))
      (hvs.lexes.lexical.feeds.mono (List.subset_append_left _ _))
  have hstart : ∀ u ∈ (d.tokensWith vs).head?, u.kind.StartsStatement := by
    obtain ⟨r', hr'⟩ := d.exists_tokensWith_eq hq vs
    rw [hr']
    rintro u ⟨⟩
    exact ht
  have hnew : Restates q d.raws (.declaration (rawText d.prop) w d.mark.isSome) _ _ :=
    restates_of_passes hq hopen hlex.lexical.ne_ending (d.exchange hvs.head hvs.last)
      (hd.exchange hvsne) hlexes hstart ((d.passes_tokensWith_of_neutral hneutral).trans hpass)
      fun before semicolon => by
        rw [content, Tree.text_declaration, Tree.text_declaration]
        exact d.declarationText_exchange hfeeds hne hraw semicolon
  rw [hcontent] at hnew
  exact ⟨_, hnew⟩

end DeclarationCut

end PixelUnit.Sheet
