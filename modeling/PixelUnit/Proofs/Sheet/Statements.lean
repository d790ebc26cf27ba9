import Mathlib.Data.List.Basic
import Mathlib.Data.List.TakeDrop
import PixelUnit.Proofs.Sheet.Lexemes
import PixelUnit.Proofs.Text.Runs
import PixelUnit.Sheet.Reading

/-!
# Statements and comments, cut and joined again

A declaration is cut out of the tokens of its statement (`DeclarationCut`), its value once more at
its mark of importance. `DeclarationCut.text_node` joins the parts again: written out, a
declaration is the text before it and the texts of its tokens. `Token.text_comment` does the same
for a comment, whose inner text is cut at its blanks.
-/

namespace PixelUnit.Sheet

/-! ## Texts of token lists -/

@[simp] theorem rawText_nil : rawText [] = "" := rfl

@[simp] theorem rawText_cons (t : Token) (ts : List Token) :
    rawText (t :: ts) = t.raw ++ rawText ts := by
  rw [rawText, List.map_cons, String.join_cons, rawText]

@[simp] theorem rawText_append (ts us : List Token) :
    rawText (ts ++ us) = rawText ts ++ rawText us := by
  induction ts with
  | nil => rw [List.nil_append, rawText_nil, String.empty_append]
  | cons t ts ih => rw [List.cons_append, rawText_cons, rawText_cons, ih, String.append_assoc]

/-- Line feeds at the ends of tokens that are no white space are escaped, and none of these tokens
is empty. -/
def FeedsEscaped (ts : List Token) : Prop :=
  ∀ t ∈ ts, t.kind ≠ .spacing → t.raw.toList ≠ [] ∧ FeedEscaped t.raw.toList

theorem FeedsEscaped.mono {ts us : List Token} (h : FeedsEscaped us) (hsub : ts ⊆ us) :
    FeedsEscaped ts :=
  fun t ht => h t (hsub ht)

/-- The line feed at the end of tokens is escaped unless it is in white space. -/
theorem FeedsEscaped.rawText {ts : List Token} (h : FeedsEscaped ts)
    (hlast : ∀ t, ts.getLast? = some t → t.kind ≠ .spacing) : FeedEscaped (rawText ts).toList := by
  rcases List.eq_nil_or_concat' ts with rfl | ⟨us, t, rfl⟩
  · exact feedEscaped_nil
  · obtain ⟨hne, hfeed⟩ := h t (by simp) (hlast t (by simp))
    rw [rawText_append, String.toList_append]
    exact FeedEscaped.append _ (by simpa using hfeed) (by simpa using hne)

theorem head?_dropWhile_spacing {ts : List Token} {t : Token}
    (h : (ts.dropWhile Token.isSpacing).head? = some t) : t.kind ≠ .spacing := by
  have hno := Text.eq_false_of_mem_head?_dropWhile h
  simpa [Token.isSpacing] using hno

theorem splitTrailing_getLast (ts : List Token) (t : Token)
    (h : (splitTrailing ts).1.getLast? = some t) : t.kind ≠ .spacing := by
  rw [splitTrailing, List.getLast?_reverse] at h
  exact head?_dropWhile_spacing h

theorem splitTrailing_spacing (ts : List Token) (t : Token) (h : t ∈ (splitTrailing ts).2) :
    t.isSpacing = true := by
  rw [splitTrailing, List.mem_reverse] at h
  exact List.all_eq_true.1 List.all_takeWhile t h

/-! ## The mark of importance -/

/-- Taking a word off a text loses nothing. -/
theorem takeWordUpToCase_append {ws cs t u : List Char}
    (h : takeWordUpToCase ws cs = some (t, u)) : t ++ u = cs := by
  fun_induction takeWordUpToCase ws cs generalizing t u with
  | case1 cs =>
    simp only [Option.some.injEq, Prod.mk.injEq] at h
    rw [← h.1, ← h.2, List.nil_append]
  | case2 => cases h
  | case3 w ws c cs _ ih =>
    obtain ⟨⟨t', u'⟩, hs, he⟩ := Option.map_eq_some_iff.1 h
    simp only [Prod.mk.injEq] at he
    rw [← he.1, ← he.2, List.cons_append, ih hs]
  | case4 => cases h

/-- The parts that a text is cut into at its mark of importance make up the text, but for a line
feed at its end. -/
theorem splitImportant_append {cs front mark : List Char}
    (h : splitImportant cs = some (front, mark)) : front ++ mark = dropLineFeed cs := by
  unfold splitImportant at h
  split at h
  · cases h
  · rename_i word r hword
    have hword := takeWordUpToCase_append hword
    split at h
    · rename_i s hs
      simp only [Option.some.injEq, Prod.mk.injEq] at h
      obtain ⟨rfl, rfl⟩ := h
      have hr : r.takeWhile Text.isBlank ++ '!' :: s = r := by
        rw [← hs, List.takeWhile_append_dropWhile]
      conv_rhs =>
        rw [← List.reverse_reverse (dropLineFeed cs), ← hword, ← hr,
          ← List.takeWhile_append_dropWhile (p := Text.isBlank) (l := s)]
      simp only [List.reverse_append, List.reverse_cons, List.append_assoc, List.cons_append,
        List.nil_append]
    · cases h

theorem sameUpToCase_mark_backslash : Text.sameUpToCase 't' '\\' = false := by
  decide +kernel

theorem importantWord_reverse :
    importantWord.reverse = 't' :: ['n', 'a', 't', 'r', 'o', 'p', 'm', 'i'] := by
  decide

theorem dropLineFeed_concat (cs : List Char) : dropLineFeed (cs ++ ['\n']) = cs := by
  rw [dropLineFeed, if_pos (by simp), List.dropLast_concat]

/-- A text that ends in an escaped line feed has no mark of importance at its end. -/
theorem splitImportant_lineFeed (front : List Char) :
    splitImportant (front ++ ['\\', '\n']) = none := by
  have hdrop : dropLineFeed (front ++ ['\\', '\n']) = front ++ ['\\'] := by
    simpa using dropLineFeed_concat (front ++ ['\\'])
  have hword : takeWordUpToCase importantWord.reverse ('\\' :: front.reverse) = none := by
    rw [importantWord_reverse, takeWordUpToCase, sameUpToCase_mark_backslash]
    exact if_neg Bool.false_ne_true
  rw [splitImportant, hdrop, List.reverse_append, List.reverse_singleton, List.singleton_append,
    hword]

/-- Splitting a mark of importance off loses nothing, if a line feed at the end is escaped. -/
theorem splitImportant_append_of_feedEscaped {cs front mark : List Char} (hcs : FeedEscaped cs)
    (h : splitImportant cs = some (front, mark)) : front ++ mark = cs := by
  rw [splitImportant_append h, dropLineFeed]
  split
  · rename_i hlast
    obtain ⟨front', rfl⟩ := hcs (beq_iff_eq.1 hlast)
    rw [splitImportant_lineFeed] at h
    cases h
  · rfl

/-! ## Declarations -/

/-- How the tokens of a declaration are cut: a property, the first colon with the white space on
both sides of it, a value, and the white space behind it. -/
structure DeclarationCut (ts : List Token) where
  prop : List Token
  gap : List Token
  colon : Token
  lead : List Token
  value : List Token
  trail : List Token
  tokens_eq : ts = prop ++ (gap ++ colon :: (lead ++ (value ++ trail)))
  prop_ne_nil : prop ≠ []
  colon_kind : colon.kind = .colon
  noColon : ∀ t ∈ prop ++ gap, t.kind ≠ .colon
  spacing : ∀ t ∈ gap ++ (lead ++ trail), t.isSpacing = true
  value_head : ∀ t, value.head? = some t → t.kind ≠ .spacing
  value_last : ∀ t, value.getLast? = some t → t.kind ≠ .spacing

namespace DeclarationCut

variable {ts : List Token} (d : DeclarationCut ts)

theorem tokens_ne_nil (d : DeclarationCut ts) : ts ≠ [] := by
  intro hnil
  have htokens := d.tokens_eq.symm.trans hnil
  exact d.prop_ne_nil (List.append_eq_nil_iff.1 htokens).1

theorem taken_ne_nil {q : Prelude} (d : DeclarationCut q.tokens) : q.taken ≠ [] :=
  fun hnil => d.tokens_ne_nil (List.append_eq_nil_iff.1 hnil).1

/-- The tokens of a declaration with what ends it and what is behind. -/
theorem append_behind {q : Prelude} {us : List Token} (d : DeclarationCut q.tokens)
    (hq : q = Prelude.read [] us) :
    us = d.prop ++ (d.gap ++ d.colon :: (d.lead ++ (d.value ++ (d.trail ++
      (q.stop.toList ++ q.rest))))) := by
  have happ := Prelude.taken_append_rest [] us
  rw [← hq, Prelude.taken, List.append_assoc] at happ
  rw [← happ]
  conv_lhs => rw [d.tokens_eq]
  simp

/-- The mark of importance at the end of the value, and the text before it. -/
def mark : Option (List Char × List Char) :=
  splitImportant (rawText d.value).toList

/-- The value as it was written, without its mark of importance. -/
def written : String :=
  String.ofList ((d.mark.map (·.1)).getD (rawText d.value).toList)

/-- The value as it is understood. -/
def clean : String :=
  String.ofList (cleanValue d.value d.mark.isSome)

/-- The text between the property and the value. -/
def between : String :=
  rawText d.gap ++ d.colon.raw ++ rawText d.lead

/-- The mark of importance as it was written. -/
def markText : Option String :=
  d.mark.map fun m => String.ofList m.2

/-- The text behind the value: its mark of importance and white space. -/
def behind : String :=
  d.markText.getD "" ++ rawText d.trail

/-- What the declaration says. -/
def content : Content :=
  .declaration (rawText d.prop) d.clean d.mark.isSome

/-- How the declaration is written; `before` is the text in front of it. -/
def raws (before : String) : Raws where
  before := some before
  between := some d.between
  trailing := some (rawText d.trail)
  important := d.markText
  value := if d.clean == d.written then none else some ⟨d.clean, d.written⟩

end DeclarationCut

/-- The cut that is made: no white space at the end of the property belongs to it, and white space
behind a colon without a value stands before it. -/
structure DeclarationCut.Exact {ts : List Token} (d : DeclarationCut ts) : Prop where
  prop_last : ∀ t, d.prop.getLast? = some t → t.kind ≠ .spacing
  trail_eq_nil : d.value = [] → d.trail = []

theorem splitTrailing_head {ts : List Token} {t : Token}
    (h : (splitTrailing ts).1.head? = some t) : ts.head? = some t := by
  rw [← splitTrailing_append ts, List.head?_append, h, Option.some_or]

/-- White space behind a colon is not taken for white space behind a value that is not there. -/
theorem splitTrailing_dropWhile_eq_nil {rest trail : List Token}
    (h : splitTrailing (rest.dropWhile Token.isSpacing) = ([], trail)) : trail = [] := by
  have hrest : trail = rest.dropWhile Token.isSpacing := by
    rw [← splitTrailing_append (rest.dropWhile _), h, List.nil_append]
  refine List.eq_nil_iff_forall_not_mem.2 fun t ht => ?_
  obtain ⟨u, us, rfl⟩ := List.exists_cons_of_ne_nil (List.ne_nil_of_mem ht)
  have hspace := splitTrailing_spacing (rest.dropWhile Token.isSpacing) u (by simp [h])
  have hu : u ∈ (rest.dropWhile Token.isSpacing).head? := by
    rw [← hrest]
    rfl
  rw [Text.eq_false_of_mem_head?_dropWhile hu] at hspace
  cases hspace

/-- A statement is a declaration only if it can be cut as one. -/
theorem exists_cut_of_declarationOf {before : String} {ts : List Token} {content : Content}
    {raws : Raws} (h : declarationOf before ts = some (content, raws)) :
    ∃ d : DeclarationCut ts, d.Exact ∧ content = d.content ∧ raws = d.raws before := by
  unfold declarationOf at h
  split at h
  -- The tokens in front of the first colon, and those behind it.
  rename_i front behind hspan
  rw [List.span_eq_takeWhile_dropWhile, Prod.mk.injEq] at hspan
  split at h
  · cases h
  -- Both lose the white space at their ends.
  rename_i colon rest
  rcases hprop : splitTrailing front with ⟨prop, gap⟩
  rcases hvalue : splitTrailing (rest.dropWhile Token.isSpacing) with ⟨value, trail⟩
  simp only [hprop, hvalue] at h
  split at h
  · cases h
  rename_i hne
  cases h
  have hfront : prop ++ gap = front := by
    rw [← splitTrailing_append front, hprop]
  have hrest : value ++ trail = rest.dropWhile Token.isSpacing := by
    rw [← splitTrailing_append (rest.dropWhile _), hvalue]
  have htokens : ts = prop ++ (gap ++ colon :: (rest.takeWhile Token.isSpacing ++
      (value ++ trail))) := by
    rw [hrest, List.takeWhile_append_dropWhile, ← List.append_assoc, hfront, ← hspan.1,
      ← hspan.2, List.takeWhile_append_dropWhile]
  -- What is left to show is that the cut is where it is said to be, and that it is exact.
  refine ⟨⟨prop, gap, colon, _, value, trail, htokens, ?_, ?_, ?_, ?_, ?_, ?_⟩,
    ⟨fun t ht => splitTrailing_getLast front t (by rwa [hprop]), fun hnil => ?_⟩, rfl, rfl⟩
  · simpa using hne
  · have hcolon : colon ∈ (ts.dropWhile fun t => t.kind != .colon).head? := by
      rw [hspan.2]
      rfl
    simpa using Text.eq_false_of_mem_head?_dropWhile hcolon
  · intro t ht
    rw [hfront, ← hspan.1] at ht
    simpa using List.all_eq_true.1 List.all_takeWhile t ht
  · intro t ht
    rcases List.mem_append.1 ht with ht | ht
    · exact splitTrailing_spacing front t (by rwa [hprop])
    rcases List.mem_append.1 ht with ht | ht
    · exact List.all_eq_true.1 List.all_takeWhile t ht
    · exact splitTrailing_spacing (rest.dropWhile _) t (by rwa [hvalue])
  · intro t ht
    exact head?_dropWhile_spacing (splitTrailing_head (by rwa [hvalue]))
  · intro t ht
    exact splitTrailing_getLast (rest.dropWhile Token.isSpacing) t (by rwa [hvalue])
  · change value = [] at hnil
    rw [hnil] at hvalue
    exact splitTrailing_dropWhile_eq_nil hvalue

/-- White space behind something else is split off. -/
theorem splitTrailing_eq {ts us : List Token} (hts : ∀ t, ts.getLast? = some t → t.kind ≠ .spacing)
    (hus : ∀ t ∈ us, t.isSpacing = true) : splitTrailing (ts ++ us) = (ts, us) := by
  have hrun : ∀ t ∈ us.reverse, t.isSpacing = true := fun t ht => hus t (List.mem_reverse.1 ht)
  have hstop : ∀ t ∈ ts.reverse.head?, t.isSpacing = false := by
    intro t ht
    rw [List.head?_reverse] at ht
    simpa [Token.isSpacing] using hts t ht
  rw [splitTrailing, List.reverse_append, Text.takeWhile_run hrun hstop,
    Text.dropWhile_run hrun hstop, List.reverse_reverse, List.reverse_reverse]

namespace DeclarationCut

variable {ts : List Token} (d : DeclarationCut ts)

/-- A statement that can be cut as a declaration is one. -/
theorem declarationOf_eq (hd : d.Exact) (before : String) :
    declarationOf before ts = some (d.content, d.raws before) := by
  have hrun : ∀ t ∈ d.prop ++ d.gap, (t.kind != .colon) = true := fun t ht => by
    simpa using d.noColon t ht
  have hstop : ∀ t ∈ (d.colon :: (d.lead ++ (d.value ++ d.trail))).head?,
      (t.kind != .colon) = false := fun t ht => by
    simpa [← Option.some.inj ht] using d.colon_kind
  have hgap : ∀ t ∈ d.gap, t.isSpacing = true := fun t ht => d.spacing t (by simp [ht])
  have hlead : ∀ t ∈ d.lead, t.isSpacing = true := fun t ht => d.spacing t (by simp [ht])
  have htrail : ∀ t ∈ d.trail, t.isSpacing = true := fun t ht => d.spacing t (by simp [ht])
  have hvalue : ∀ t ∈ (d.value ++ d.trail).head?, t.isSpacing = false := by
    intro t ht
    cases hnil : d.value with
    | nil => simp [hnil, hd.trail_eq_nil hnil] at ht
    | cons u us =>
      have hu := d.value_head u (by rw [hnil]; rfl)
      rw [hnil] at ht
      obtain rfl := Option.some.inj ht
      simpa [Token.isSpacing] using hu
  have hspan : ts.span (·.kind != .colon) =
      (d.prop ++ d.gap, d.colon :: (d.lead ++ (d.value ++ d.trail))) := by
    have htokens := d.tokens_eq
    rw [← List.append_assoc] at htokens
    rw [List.span_eq_takeWhile_dropWhile, congrArg (List.takeWhile _) htokens,
      congrArg (List.dropWhile _) htokens, Text.takeWhile_run hrun hstop,
      Text.dropWhile_run hrun hstop]
  unfold declarationOf
  simp only [hspan, splitTrailing_eq hd.prop_last hgap, Text.takeWhile_run hlead hvalue,
    Text.dropWhile_run hlead hvalue, splitTrailing_eq d.value_last htrail]
  rw [if_neg (by simpa using d.prop_ne_nil)]
  rfl

/-- The value as it was written and its mark of importance make up the text of the value's
tokens. -/
def Joins : Prop :=
  d.written ++ d.markText.getD "" = rawText d.value

theorem joins_of_mark (h : d.mark = none) : d.Joins := by
  simp [Joins, written, markText, h]

/-- Only a line feed behind the mark of importance can be lost. -/
theorem joins_of_feedEscaped (h : FeedEscaped (rawText d.value).toList) : d.Joins := by
  cases hmark : d.mark with
  | none => exact d.joins_of_mark hmark
  | some m =>
    have happ := splitImportant_append_of_feedEscaped h hmark
    simp [Joins, written, markText, hmark, ← String.ofList_append, happ]

/-- The value and its mark of importance are written as they were read, if line feeds at the ends of
tokens are escaped. -/
theorem written_append_markText (hts : FeedsEscaped ts) :
    d.written ++ d.markText.getD "" = rawText d.value := by
  refine d.joins_of_feedEscaped (FeedsEscaped.rawText (hts.mono fun t ht => ?_) d.value_last)
  simp [d.tokens_eq, ht]

/-- Written out, a declaration is the text before it, its parts, and its value as it was written
with the mark of importance. -/
theorem text_node_eq (before : String) (semicolon : Bool) :
    (Tree.node d.content (d.raws before) []).text semicolon =
      before ++ rawText d.prop ++ d.between ++ (d.written ++ d.markText.getD "") ++
        rawText d.trail ++ if semicolon then ";" else "" := by
  simp only [Tree.text, content]
  unfold Tree.declarationText
  by_cases hclean : d.clean = d.written <;> cases hm : d.mark <;>
    simp [raws, markText, hm, hclean, String.append_assoc]

theorem rawText_eq : rawText ts =
    rawText d.prop ++ d.between ++ rawText d.value ++ rawText d.trail := by
  conv_lhs => rw [d.tokens_eq]
  simp [between, String.append_assoc]

/-- Written out, a declaration is the text before it and the texts of its tokens. -/
theorem text_node (hjoins : d.Joins) (before : String) (semicolon : Bool) :
    (Tree.node d.content (d.raws before) []).text semicolon =
      before ++ rawText ts ++ if semicolon then ";" else "" := by
  rw [d.text_node_eq, d.rawText_eq, hjoins]
  simp only [String.append_assoc]

end DeclarationCut

/-! ## Comments -/

/-- A text with a character that is no blank has the trailing blanks of what is behind its leading
ones. -/
theorem trailingBlanks_trimStart {cs : List Char} (h : Text.trimStart cs ≠ []) :
    Text.trailingBlanks (Text.trimStart cs) = Text.trailingBlanks cs := by
  have hlen : ((Text.trimStart cs).reverse.takeWhile Text.isBlank).length ≠
      (Text.trimStart cs).reverse.length := by
    intro hlen
    have hall := (List.takeWhile_prefix Text.isBlank).eq_of_length hlen
    obtain ⟨c, r, hcons⟩ := List.exists_cons_of_ne_nil h
    have hhead : c ∈ (Text.trimStart cs).head? := by
      rw [hcons]
      rfl
    have hc : Text.isBlank c = true := by
      refine List.all_eq_true.1 (@List.all_takeWhile _ _ (Text.trimStart cs).reverse) c ?_
      rw [hall, hcons]
      simp
    rw [Text.eq_false_of_mem_head?_dropWhile hhead] at hc
    cases hc
  conv_rhs => rw [← Text.trimStart_append cs]
  rw [Text.trailingBlanks, Text.trailingBlanks, List.reverse_append, List.takeWhile_append,
    if_neg hlen]

/-- A text is its leading blanks, its trimmed part and its trailing blanks. -/
theorem blanks_append_trim {cs : List Char} (h : Text.trim cs ≠ []) :
    Text.leadingBlanks cs ++ Text.trim cs ++ Text.trailingBlanks cs = cs := by
  have hne : Text.trimStart cs ≠ [] := by
    intro hnil
    rw [Text.trim, hnil] at h
    exact h rfl
  rw [← trailingBlanks_trimStart hne, Text.trim, List.append_assoc, Text.trimEnd_append,
    Text.trimStart_append]

theorem inner_of_raw {t : Token} {body : List Char}
    (h : t.raw.toList = '/' :: '*' :: body ++ ['*', '/']) : t.inner = body := by
  rw [Token.inner, h]
  simp

/-- What a comment says, and how it is written; `before` is the text in front of it. -/
def commentNode (before : String) (t : Token) : Tree :=
  .node (.comment (String.ofList t.text))
    { before := some before
      left := some (String.ofList (if t.text.isEmpty then t.inner else Text.leadingBlanks t.inner))
      right := some (String.ofList
        (if t.text.isEmpty then [] else Text.trailingBlanks t.inner)) } []

/-- Written out, a comment is the text before it and the text of its token. -/
theorem text_commentNode {t : Token} (h : t.kind = .comment) (hmarks : t.kind.Marks t.raw.toList)
    (before : String) (semicolon : Bool) :
    (commentNode before t).text semicolon = before ++ t.raw := by
  rw [h] at hmarks
  obtain ⟨body, hraw⟩ := hmarks
  have hinner := inner_of_raw hraw
  have hbody : (if t.text.isEmpty then t.inner else Text.leadingBlanks t.inner) ++ t.text ++
      (if t.text.isEmpty then [] else Text.trailingBlanks t.inner) = body := by
    by_cases htext : t.text = []
    · simp [htext, hinner]
    · rw [if_neg (by simpa using htext), if_neg (by simpa using htext), Token.text, hinner]
      exact blanks_append_trim (by rwa [Token.text, hinner] at htext)
  have hchars : t.raw = "/*" ++ String.ofList body ++ "*/" := by
    rw [← String.toList_inj, hraw]
    simp
  rw [hchars, ← hbody]
  simp [commentNode, Tree.text, Tree.commentText, String.ofList_append, String.append_assoc]

end PixelUnit.Sheet
