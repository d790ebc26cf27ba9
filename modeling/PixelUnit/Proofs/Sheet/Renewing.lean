import PixelUnit.Proofs.Sheet.Exchange
import PixelUnit.Proofs.Sheet.Matching
import PixelUnit.Proofs.Sheet.Origins

/-!
# New values of declarations

A declaration can be read with a new value if that can be read by itself, with the mark of
importance that stays behind it, and closes the brackets that the old one closed (`Exchange`,
`Tree.Renewable`). What is read then is the declaration with that value but for what the reader
makes of it (`Tree.Renewed`); it is written as the declaration with the new value was, so a tree
with new values has the text of the tree that is read from this text (`Tree.Matches.text_eq`).
-/

namespace PixelUnit.Sheet

/-- A value can take the place of another one. -/
structure Exchange (old new : List Char) (us vs : List Token) : Prop where
  old : ReadsAlone old us
  new : ReadsAlone new vs
  ne_nil : vs ≠ []
  passes : ∀ awaited, Prelude.Awaits awaited →
    Prelude.passes awaited (vs.map Token.kind) = Prelude.passes awaited (us.map Token.kind)

namespace Tree

/-- The mark of importance as it is written. -/
def markText (raws : Raws) (important : Bool) : String :=
  if important then raws.important.getD " !important" else ""

/-- If `r` gives a declaration a new value, the declaration can be read with that, and what is
understood then satisfies `Q`. -/
def Renewable (r : Nat → String → String → Option String) (Q : String → Prop) (i : Nat)
    (content : Content) (raws : Raws) : Prop :=
  ∀ prop value important, content = .declaration prop value important →
    ∀ new, r i prop value = some new → new ≠ value ∧ ∃ us vs,
      Exchange (writtenValue raws value ++ markText raws important).toList
        (new ++ markText raws important).toList us vs ∧
      ∀ important', Q (String.ofList (cleanValue vs important'))

/-- A node as it is read again: with a new value if `r` gives one, else as it was. -/
inductive Renewed (r : Nat → String → String → Option String) (Q : String → Prop) (i : Nat) :
    Content → Raws → Content → Raws → Prop
  | same {content : Content} {raws : Raws} (h : ∀ prop value important,
      content = .declaration prop value important → r i prop value = none) :
      Renewed r Q i content raws content raws
  | value {prop value new value' : String} {important important' : Bool} {raws raws' : Raws}
      (hnew : r i prop value = some new) (hvalue : Q value')
      (htext : ∀ semicolon, declarationText raws' prop value' important' semicolon =
        declarationText raws prop new important semicolon) :
      Renewed r Q i (.declaration prop value important) raws (.declaration prop value' important')
        raws'

variable {r : Nat → String → String → Option String} {Q : String → Prop}

theorem Renewed.of_not_declaration {i : Nat} {content : Content} (raws : Raws)
    (h : ∀ prop value important, content ≠ .declaration prop value important) :
    Renewed r Q i content raws content raws :=
  .same fun prop value important hc => absurd hc (h prop value important)

theorem keepsContainers_renewed : Frame.KeepsContainers (Renewed r Q) := by
  refine fun i content raws hshows => .of_not_declaration raws fun prop value important hc => ?_
  rw [hc] at hshows
  cases hshows

end Tree

/-! ## One declaration -/

namespace DeclarationCut

variable {ts : List Token} (d : DeclarationCut ts) {vs : List Token}

theorem markText_raws (before : String) :
    Tree.markText (d.raws before) d.mark.isSome = d.markText.getD "" := by
  unfold Tree.markText raws markText
  cases d.mark <;> simp

/-- The tokens of the statement with another value. -/
def tokensWith (vs : List Token) : List Token :=
  d.prop ++ (d.gap ++ d.colon :: (d.lead ++ (vs ++ d.trail)))

/-- The cut of the statement with another value. -/
def exchange (hhead : ∀ t, vs.head? = some t → t.kind ≠ .spacing)
    (hlast : ∀ t, vs.getLast? = some t → t.kind ≠ .spacing) :
    DeclarationCut (d.tokensWith vs) where
  prop := d.prop
  gap := d.gap
  colon := d.colon
  lead := d.lead
  value := vs
  trail := d.trail
  tokens_eq := rfl
  prop_ne_nil := d.prop_ne_nil
  colon_kind := d.colon_kind
  noColon := d.noColon
  spacing := d.spacing
  value_head := hhead
  value_last := hlast

variable {hhead : ∀ t, vs.head? = some t → t.kind ≠ .spacing}
  {hlast : ∀ t, vs.getLast? = some t → t.kind ≠ .spacing}

theorem Exact.exchange {d : DeclarationCut ts} (hd : d.Exact) (hne : vs ≠ []) :
    (d.exchange hhead hlast).Exact :=
  ⟨hd.prop_last, fun hnil => absurd hnil hne⟩

/-- What holds of all tokens, old and new, holds of those with another value. -/
theorem forall_mem_tokensWith {P : Token → Prop} (hts : ∀ t ∈ ts, P t) (hvs : ∀ t ∈ vs, P t) :
    ∀ t ∈ d.tokensWith vs, P t := by
  have hold : ∀ t ∈ d.tokensWith d.value, P t := fun t ht => hts t (d.tokens_eq ▸ ht)
  simp only [tokensWith, List.mem_append, List.mem_cons] at hold ⊢
  grind

/-- The brackets are closed as those in the old statement are. -/
theorem passes_tokensWith (hvs : ∀ awaited, Prelude.Awaits awaited →
      Prelude.passes awaited (vs.map Token.kind) =
        Prelude.passes awaited (d.value.map Token.kind)) :
    Prelude.passes [] ((d.tokensWith vs).map Token.kind) =
      Prelude.passes [] (ts.map Token.kind) := by
  have hcongr := Prelude.passes_congr hvs ((d.prop ++ d.gap ++ d.colon :: d.lead).map Token.kind)
    (d.trail.map Token.kind)
  rw [congrArg (List.map Token.kind) d.tokens_eq, tokensWith]
  simpa using hcongr

/-- The statement with another value is written as the declaration with it. -/
theorem declarationText_exchange {before new : String} (hfeeds : FeedsEscaped (d.tokensWith vs))
    (hnew : new ≠ d.clean) (hvs : rawText vs = new ++ d.markText.getD "") (semicolon : Bool) :
    Tree.declarationText ((d.exchange hhead hlast).raws before) (rawText d.prop)
        (d.exchange hhead hlast).clean (d.exchange hhead hlast).mark.isSome semicolon =
      Tree.declarationText (d.raws before) (rawText d.prop) new d.mark.isSome semicolon := by
  have hwritten : Tree.writtenValue (d.raws before) new = new := by
    unfold Tree.writtenValue raws
    by_cases h : d.clean = d.written
    · simp [h]
    · simp [h, hnew.symm]
  have hvalue : (d.exchange hhead hlast).written ++ (d.exchange hhead hlast).markText.getD "" =
      new ++ d.markText.getD "" :=
    ((d.exchange hhead hlast).written_append_markText hfeeds).trans hvs
  have hback : ∀ back : String, (d.exchange hhead hlast).written ++
      ((d.exchange hhead hlast).markText.getD "" ++ back) =
        new ++ (d.markText.getD "" ++ back) := fun back => by
    rw [← String.append_assoc, hvalue, String.append_assoc]
  rw [Tree.declarationText_eq, Tree.declarationText_eq, hwritten, writtenValue_raws, valueEnd_raws,
    valueEnd_raws, behind, behind]
  simp only [String.append_assoc]
  exact congrArg (Tree.valueFront (d.raws before) (rawText d.prop) ++ ·) (hback _)

end DeclarationCut

/-! ## The text -/

namespace Tree

variable {r : Nat → String → String → Option String} {Q : String → Prop}

theorem Renewed.isComment_eq {i : Nat} {content content' : Content} {raws raws' : Raws}
    (h : Renewed r Q i content raws content' raws') : content'.isComment = content.isComment := by
  cases h <;> rfl

/-- Renewing values leaves comments comments. -/
theorem MatchesAll.any_isComment {i : Nat} {ts ts' : List Tree}
    (h : MatchesAll (Renewed r Q) i ts ts') :
    ts'.any (!·.isComment) = ts.any (!·.isComment) := by
  induction ts generalizing i ts' with
  | nil =>
    cases ts' with
    | nil => rfl
    | cons t' ts' => exact h.elim
  | cons t ts ih =>
    cases ts' with
    | nil => exact h.elim
    | cons t' ts' =>
      obtain ⟨content, raws, us⟩ := t
      obtain ⟨content', raws', us'⟩ := t'
      rw [List.any_cons, List.any_cons, ih h.2]
      exact congrArg (!· || _) (Renewed.isComment_eq h.1.1)

/-- The text of a node depends on the texts of its children. -/
theorem text_congr (content : Content) (raws : Raws) (semicolon : Bool) {ts ts' : List Tree}
    (h : ∀ more, texts more ts' = texts more ts) :
    (node content raws ts').text semicolon = (node content raws ts).text semicolon := by
  cases content with
  | atRule name params body => cases body <;> simp only [text, h]
  | root | rule | declaration | comment => simp only [text, h]

mutual

/-- A tree that is read again has the text of the tree with its new values. -/
theorem Matches.text_eq : ∀ {t t' : Tree} {i : Nat} (semicolon : Bool),
    Matches (Renewed r Q) i t t' → t'.text semicolon = (t.mapValues r i).text semicolon
  | .node content raws ts, .node content' raws' ts', i, semicolon, ⟨hnode, hchildren⟩ => by
    cases hnode with
    | same hold =>
      have hcontent : newContent (r i) content = content := by
        cases content with
        | declaration prop value important => rw [newContent, hold _ _ _ rfl, Option.getD_none]
        | root | rule | atRule | comment => rfl
      rw [mapValues, hcontent]
      exact text_congr content raws semicolon fun more => hchildren.texts_eq more
    | value hnew _ htext =>
      rw [mapValues, newContent, hnew, text, text]
      exact htext semicolon

/-- The text of trees with new values is that of the trees as they are read again. -/
theorem MatchesAll.texts_eq : ∀ {ts ts' : List Tree} {i : Nat} (semicolon : Bool),
    MatchesAll (Renewed r Q) i ts ts' → texts semicolon ts' = texts semicolon (mapValuesOf r i ts)
  | [], [], _, _, _ => rfl
  | t :: ts, t' :: ts', i, semicolon, h => by
    rw [mapValuesOf, texts, texts, h.2.any_isComment, any_mapValuesOf, h.1.text_eq, h.2.texts_eq]

end

end Tree

end PixelUnit.Sheet
