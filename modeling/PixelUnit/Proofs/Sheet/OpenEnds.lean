import PixelUnit.Proofs.Sheet.BraceBehind
import PixelUnit.Proofs.Sheet.Spots

/-!
# Statements without an end of their own

The last statement of a container can do without a semicolon: the end of the container ends it. Such
a statement goes on with what is put behind it, up to that end (`Statement.exists_comment`), and is
read as before if a semicolon is put behind it (`Statement.exists_semicolon`). So are all tokens of
a sheet up to such a place (`OpenEnd`, `SourceReading.exists_openEnd`).
-/

namespace PixelUnit.Sheet

variable {ts rest taken : List Token} {q : Prelude} {content : Content} {raws : String → Raws}
  {t u : Token}

namespace Prelude

theorem stop_eq_none {us : List Token} (hq : q = read [] us) (hopen : q.opensBlock = false)
    (hends : q.endsInSemicolon = false) : q.stop = none := by
  subst hq
  rcases stop_cases [] us with ⟨u, hu, hkind⟩ | ⟨u, hu, hkind⟩ | ⟨hu, -⟩
  · rw [opensBlock, hu, Option.any_some, hkind] at hopen
    cases hopen
  · rw [endsInSemicolon, hu, Option.any_some, hkind] at hends
    cases hends
  · exact hu

/-- A statement without an end of its own is all of its tokens, and leaves no bracket open. -/
theorem tokens_append_rest {us : List Token} (hq : q = read [] us) (hclosed : q.unclosed = false)
    (hstop : q.stop = none) :
    q.tokens ++ q.rest = us ∧ passes [] (q.tokens.map Token.kind) = some [] := by
  subst hq
  constructor
  · have happ := taken_append_rest [] us
    rwa [taken, hstop, Option.toList_none, List.append_nil] at happ
  · obtain ⟨left, hpass, hleft⟩ := passes_tokens [] us
    rwa [hleft.1 hclosed] at hpass

end Prelude

namespace DeclarationCut

/-- The cut of a declaration with a comment behind it. -/
def withComment (d : DeclarationCut ts) (hd : d.Exact) (hu : u.kind = .comment) :
    DeclarationCut (ts ++ [u]) where
  prop := d.prop
  gap := d.gap
  colon := d.colon
  lead := d.lead
  value := d.value ++ (d.trail ++ [u])
  trail := []
  tokens_eq := by
    conv_lhs => rw [d.tokens_eq]
    simp
  prop_ne_nil := d.prop_ne_nil
  colon_kind := d.colon_kind
  noColon := d.noColon
  spacing t ht := d.spacing t (by
    rcases List.mem_append.1 ht with ht | ht
    · exact List.mem_append_left _ ht
    · exact List.mem_append_right _ (List.mem_append_left _ (by simpa using ht)))
  value_head t ht := by
    by_cases hnil : d.value = []
    · rw [hnil, hd.trail_eq_nil hnil] at ht
      obtain rfl := Option.some.inj ht
      simp [hu]
    · rw [List.head?_append_of_ne_nil _ hnil] at ht
      exact d.value_head t ht
  value_last t ht := by
    rw [← List.append_assoc, List.getLast?_concat] at ht
    obtain rfl := Option.some.inj ht
    simp [hu]

theorem Exact.withComment {d : DeclarationCut ts} (hd : d.Exact) (hu : u.kind = .comment) :
    (d.withComment hd hu).Exact :=
  ⟨hd.prop_last, fun _ => rfl⟩

end DeclarationCut

namespace Statement

/-- What a statement without an end of its own is. -/
inductive Unended (q : Prelude) : List Token → Content → (String → Raws) → Prop
  | atRule {t : Token} {gap : List Token} (ht : t.kind = .atKeyword)
      (hgap : ∀ u ∈ gap, u.isSpacing = true) (hhead : ∀ u ∈ q.tokens.head?, u.isSpacing = false) :
      Unended q (t :: (gap ++ q.tokens))
        (.atRule t.keyword (rawText (splitTrailing q.tokens).1) false)
        fun before => Builder.atRuleRaws before gap q
  | declaration (ht : ∀ t ∈ q.tokens.head?, t.kind.StartsStatement) (d : DeclarationCut q.tokens)
      (hd : d.Exact) : Unended q q.tokens d.content d.raws

/-- A statement without an end of its own is the start of an at-rule or a declaration, and its
brackets are closed. -/
theorem exists_unended (h : Statement ts q content raws) (hclosed : q.unclosed = false)
    (hopen : q.opensBlock = false) (hends : q.endsInSemicolon = false) :
    q.stop = none ∧ Prelude.passes [] (q.tokens.map Token.kind) = some [] ∧
      ∃ taken, ts = taken ++ q.rest ∧ Unended q taken content raws := by
  cases h with
  | @atRule t r _ ht hq =>
    have hstop := Prelude.stop_eq_none hq hopen hends
    obtain ⟨happ, hpass⟩ := Prelude.tokens_append_rest hq hclosed hstop
    refine ⟨hstop, hpass, t :: (r.takeWhile Token.isSpacing ++ q.tokens), ?_, ?_⟩
    · rw [List.cons_append, List.append_assoc, happ, List.takeWhile_append_dropWhile]
    · rw [hopen]
      refine .atRule ht (fun _ => List.mem_takeWhile_imp) fun u hu => ?_
      have hdrop : u ∈ (r.dropWhile Token.isSpacing).head? := by
        rw [← happ]
        exact List.mem_head?_append_of_mem_head? hu
      exact Text.eq_false_of_mem_head?_dropWhile hdrop
  | rule _ _ hopen' => rw [hopen] at hopen'; cases hopen'
  | @declaration t r _ ht hq _ d hd =>
    have hstop := Prelude.stop_eq_none hq hopen hends
    obtain ⟨happ, hpass⟩ := Prelude.tokens_append_rest hq hclosed hstop
    refine ⟨hstop, hpass, q.tokens, happ.symm, .declaration (fun u hu => ?_) d hd⟩
    have hhead : u ∈ (t :: r).head? := by
      rw [← happ]
      exact List.mem_head?_append_of_mem_head? hu
    obtain rfl := Option.some.inj hhead
    exact ht

namespace Unended

variable {q' : Prelude}

theorem tokens_subset (h : Unended q taken content raws) : q.tokens ⊆ taken := by
  cases h with
  | atRule => exact fun t ht => List.mem_cons_of_mem _ (List.mem_append_right _ ht)
  | declaration => exact fun t ht => ht

/-- A statement without an end of its own is a statement with other tokens behind it. It says the
same if none of them belong to it. -/
theorem exists_statement (h : Unended q taken content raws) (hu : u.isSpacing = false)
    (hread : Prelude.read [] (q.tokens ++ u :: rest) = q') (hopen : q'.opensBlock = false)
    (hcut : ∀ d : DeclarationCut q.tokens, d.Exact → ∃ d' : DeclarationCut q'.tokens, d'.Exact ∧
      (q'.tokens = q.tokens → d'.content = d.content ∧ d'.raws = d.raws)) :
    ∃ content' raws', Statement (taken ++ u :: rest) q' content' raws' ∧
      (q'.tokens = q.tokens → content' = content ∧ raws' = raws) := by
  cases h with
  | @atRule t gap ht hgap hhead =>
    have hx : ∀ v ∈ (q.tokens ++ u :: rest).head?, v.isSpacing = false := by
      intro v hv
      cases htokens : q.tokens with
      | nil =>
        rw [htokens] at hv
        obtain rfl := Option.some.inj hv
        exact hu
      | cons w tokens =>
        rw [htokens] at hv hhead
        exact hhead v hv
    have hnew := atRule_behind ht hgap hx hread.symm
    rw [← List.append_assoc, ← List.cons_append, hopen] at hnew
    refine ⟨_, _, hnew, fun hsame => ⟨by rw [hsame], ?_⟩⟩
    simp only [Builder.atRuleRaws, hsame]
  | declaration ht d hd =>
    obtain ⟨d', hd', hsame⟩ := hcut d hd
    obtain ⟨t, r, htokens⟩ := List.exists_cons_of_ne_nil d.tokens_ne_nil
    have hstart := ht t (by rw [htokens]; rfl)
    have hstatement : Statement (t :: (r ++ u :: rest)) q' d'.content d'.raws := by
      rw [htokens] at hread
      exact .declaration hstart hread.symm hopen d' hd'
    rw [← List.cons_append, ← htokens] at hstatement
    exact ⟨_, _, hstatement, hsame⟩

/-- A statement without an end of its own is read as before with a semicolon behind it. -/
theorem semicolon (h : Unended q taken content raws)
    (hpass : Prelude.passes [] (q.tokens.map Token.kind) = some [])
    (hts : ∀ t ∈ taken, t.kind ≠ .ending) (hu : u.kind = .semicolon) (rest : List Token) :
    Statement (taken ++ u :: rest) ⟨q.tokens, some u, rest, false⟩ content raws := by
  have hread : Prelude.read [] (q.tokens ++ u :: rest) = ⟨q.tokens, some u, rest, false⟩ :=
    Prelude.read_stop (fun t ht => hts t (h.tokens_subset ht)) hpass (Or.inr hu)
  obtain ⟨content', raws', hq, hsame⟩ := h.exists_statement (by simp [Token.isSpacing, hu]) hread
    (by simp [Prelude.opensBlock, hu]) fun d hd => ⟨d, hd, fun _ => ⟨rfl, rfl⟩⟩
  obtain ⟨rfl, rfl⟩ := hsame rfl
  exact hq

/-- A statement without an end of its own goes on with a comment behind it. -/
theorem comment (h : Unended q taken content raws)
    (hpass : Prelude.passes [] (q.tokens.map Token.kind) = some [])
    (hts : ∀ t ∈ taken, t.kind ≠ .ending) (hu : u.kind = .comment) (hrest : ClosesNext rest) :
    ∃ content' raws',
      Statement (taken ++ u :: rest) ⟨q.tokens ++ [u], none, rest, false⟩ content' raws' := by
  have hpass' : Prelude.passes [] ((q.tokens ++ [u]).map Token.kind) = some [] := by
    rw [List.map_append, Prelude.passes_append, hpass]
    simp [Prelude.passes, hu, Token.Kind.stops]
  have hread : Prelude.read [] (q.tokens ++ u :: rest) = ⟨q.tokens ++ [u], none, rest, false⟩ := by
    rw [List.append_cons]
    refine Prelude.read_before (fun t ht => ?_) hpass' hrest
    rcases List.mem_append.1 ht with ht | ht
    · exact hts t (h.tokens_subset ht)
    · simp [List.mem_singleton.1 ht, hu]
  obtain ⟨content', raws', hq, -⟩ := h.exists_statement (by simp [Token.isSpacing, hu]) hread rfl
    fun d hd => ⟨d.withComment hd hu, hd.withComment hu, fun hsame => by simp at hsame⟩
  exact ⟨content', raws', hq⟩

end Unended

end Statement

/-! ## The last statement of a container -/

/-- Some tags start with the end of a container whose last statement has no semicolon. -/
def ClosesOpen (l : List Tag) : Prop :=
  ∃ brace after m, l = .closing brace after (some false) :: m

/-- The last statement of a container is not asked for a semicolon if none follows it. -/
theorem ClosesOpen.asks_eq {l : List Tag} (h : ClosesOpen l) (semicolon : Bool) :
    Tag.asks semicolon l = false := by
  obtain ⟨brace, after, m, rfl⟩ := h
  rfl

namespace ReadsTags

variable {s : Option Bool} {ss : List (Option Bool)} {p : String} {l : List Tag}

/-- The end of a container says whether a semicolon follows its last child. -/
theorem eq_of_closesOpen (h : ReadsTags (s :: ss) p ts l) (hl : ClosesOpen l) : s = some false := by
  obtain ⟨brace, after, m, rfl⟩ := hl
  generalize hm : Tag.closing brace after (some false) :: m = m', hss : s :: ss = ss' at h
  induction h with
  | finish | close =>
    cases hss
    exact (Tag.closing.inj (List.cons.inj hm).1).2.2.symm
  | pass _ _ ih => exact ih hm hss
  | comment | line | block => cases hm

/-- Only the end of a container is in front of the tags of one that ends at once. -/
theorem closesOpen_iff (h : ReadsTags (s :: ss) p ts l) (hts : s = some false → ClosesNext ts) :
    ClosesOpen l ↔ s = some false := by
  refine ⟨h.eq_of_closesOpen, fun hs => ?_⟩
  obtain ⟨brace, m, rfl⟩ := h.exists_closing (hts hs)
  exact ⟨brace, some p, m, by rw [hs]⟩

/-- Before the end of a container whose last statement has no semicolon stands this statement. -/
theorem isStatement_of_closesOpen {T : Tag} (h : ReadsTags (s :: ss) p ts (T :: l))
    (hl : ClosesOpen l) (hs : s = some false → ClosesNext ts) (hss : some false ∉ ss)
    (hts : ∀ t ∈ ts.head?, ¬(t.kind = .spacing ∨ t.kind = .semicolon)) : T.IsStatement := by
  cases h with
  | finish =>
    obtain ⟨brace, after, m, hnil⟩ := hl
    cases hnil
  | pass ht => exact absurd ht (hts _ rfl)
  | close _ h => exact absurd (h.eq_of_closesOpen hl ▸ List.mem_cons_self) hss
  | comment ht h =>
    rw [hs (h.eq_of_closesOpen hl) _ rfl] at ht
    cases ht
  | line hq => exact Or.inl ⟨_, _, rfl, hq.isComment_eq⟩
  | block => exact Or.inr ⟨_, _, rfl⟩

end ReadsTags

section Spot

variable {k l : List Tag} {front : List Token} {s : Option Bool} {ss : List (Option Bool)}
  {p : String} {file : Option String}

theorem Prelude.tag_of_closed (hopen : q.opensBlock = false) (content : Content) (raws : Raws) :
    q.tag content raws = .leaf content raws := by
  rw [tag, if_neg (by simp [hopen])]

namespace Spot

/-- A statement in front of the end of a container whose last one has no semicolon has none. -/
theorem reads_of_closesOpen (h : Spot file k l q front s ss p) (hl : ClosesOpen l) :
    q.opensBlock = false ∧ q.endsInSemicolon = false ∧
      ReadsTags (some false :: ss) "" q.rest l := by
  have hreads := h.reads
  cases hopen : q.opensBlock with
  | true =>
    rw [Prelude.behind, if_pos hopen] at hreads
    cases hreads.eq_of_closesOpen hl
  | false =>
    rw [Prelude.behind, if_neg (by simp [hopen])] at hreads
    have hs := hreads.eq_of_closesOpen hl
    rw [hs] at hreads
    exact ⟨rfl, Option.some.inj hs, hreads⟩

/-- The statement is read as it was if a semicolon is put behind it. -/
theorem run_semicolon (h : Spot file k l q front s ss p)
    (hunended : Statement.Unended q taken content raws)
    (hpass : Prelude.passes [] (q.tokens.map Token.kind) = some [])
    (htaken : ∀ t ∈ taken, t.kind ≠ .ending) (hopen : q.opensBlock = false) (us : List Token)
    (hu : u.kind = .semicolon) : ∃ b : Builder,
      (Builder.start file).run (front ++ taken ++ u :: us) = b.run us ∧
        b.Stands (some true :: ss) ""
          (.opening (.root file) {} :: (k ++ [q.tag content (raws p)])) := by
  obtain ⟨b, hrun, hb⟩ := h.runs (taken ++ u :: us)
  have hq' := hunended.semicolon hpass htaken hu us
  obtain ⟨b', hrun', hb'⟩ := hb.line hq' (by simp [Prelude.opensBlock, hu]) rfl
  have hsemicolon : Prelude.endsInSemicolon ⟨q.tokens, some u, us, false⟩ = true := by
    simp [Prelude.endsInSemicolon, hu]
  rw [hsemicolon] at hb'
  exact ⟨b', by rw [List.append_assoc, hrun, hrun'], by rwa [Prelude.tag_of_closed hopen]⟩

/-- The statement is read with the comment that is put behind it. -/
theorem run_comment {us : List Token} (h : Spot file k l q front s ss p)
    (hunended : Statement.Unended q taken content raws)
    (hpass : Prelude.passes [] (q.tokens.map Token.kind) = some [])
    (htaken : ∀ t ∈ taken, t.kind ≠ .ending) (hu : u.kind = .comment) (hus : ClosesNext us) :
    ∃ (b : Builder) (T : Tag), (Builder.start file).run (front ++ taken ++ u :: us) = b.run us ∧
      b.Stands (some false :: ss) "" (.opening (.root file) {} :: (k ++ [T])) := by
  obtain ⟨b, hrun, hb⟩ := h.runs (taken ++ u :: us)
  obtain ⟨content', raws', hq'⟩ := hunended.comment hpass htaken hu hus
  obtain ⟨b', hrun', hb'⟩ := hb.line hq' rfl rfl
  exact ⟨b', .leaf content' (raws' p), by rw [List.append_assoc, hrun, hrun'], hb'⟩

/-- What is written up to a statement without an end of its own. -/
theorem written_unended (h : Spot file k l q front s ss p) (hopen : q.opensBlock = false)
    (hq : Statement (taken ++ q.rest) q content raws)
    (hends : q.endsInSemicolon = false) (hlexical : Lexical (taken ++ q.rest)) (m : List Tag) :
    Tag.written false (.opening (.root file) {} :: (k ++ q.tag content (raws p) :: m)) =
      rawText (front ++ taken) ++
        ((if Tag.asks false m then ";" else "") ++ Tag.written false m) := by
  have htext := hq.text_leaf hopen hlexical p
  rw [hends, rawText_append, ← String.append_assoc] at htext
  have hnode : (q.tag content (raws p)).text (Tag.asks false m) =
      p ++ rawText taken ++ if Tag.asks false m then ";" else "" := by
    rw [Prelude.tag_of_closed hopen, ← (String.append_left_inj _).1 htext]
    cases Tag.asks false m with
    | true => exact hq.text_true hopen p
    | false => exact (String.append_empty).symm
  rw [rawText_append, String.append_assoc]
  exact h.written hq.isComment_eq (by rw [hnode]; simp only [String.append_assoc])

end Spot

end Spot

section Source

variable {css : String} {file : Option String} {tree : Tree} {k l : List Tag}

/-- A container whose last statement has no semicolon ends behind this statement. -/
theorem SourceReading.exists_last (htree : (ofSource css file).tree = .ok tree)
    (hfaults : (ofSource css file).faults = [])
    (htags : tree.tags = .opening (.root file) {} :: (k ++ l)) (hl : ClosesOpen l) :
    ∃ k' T, k = k' ++ [T] ∧ T.IsStatement := by
  have hne : l ≠ [] := by
    obtain ⟨brace, after, m, rfl⟩ := hl
    exact List.cons_ne_nil _ _
  rcases List.eq_nil_or_concat' k with rfl | ⟨k', T, rfl⟩
  · obtain ⟨front, back, s, ss, -, hcut⟩ := exists_place htree hfaults htags hne
    have hs := hcut.reads.eq_of_closesOpen hl
    cases hs.symm.trans (List.cons.inj (hcut.nil rfl).2).1
  · rw [List.append_assoc] at htags
    obtain ⟨front, back, s, ss, -, hcut⟩ := exists_place htree hfaults htags (List.cons_ne_nil _ _)
    obtain ⟨zs, us, rfl, hzs, hus, hhead⟩ := hcut.reads.exists_passed
    refine ⟨k', T, rfl, hus.isStatement_of_closesOpen hl (fun hs => ?_) hcut.outer hhead⟩
    obtain rfl := ReadsTags.eq_nil_of_closesNext hzs (hcut.ends hs)
    exact hcut.ends hs

/-- A place in a sheet where a container ends behind a statement without a semicolon: the tokens
`front` are in front of it, which are read as the tags `k` if a semicolon is put there, and as
fewer if a comment is. -/
structure OpenEnd (file : Option String) (k l : List Tag) (front rest : List Token)
    (ss : List (Option Bool)) : Prop where
  reads : ReadsTags (some false :: ss) "" rest l
  lexes_rest : Lexes (rawText rest).toList rest
  closes : ClosesNext rest
  lexes : ∀ {x : List Char} {xs : List Token}, Closes x → (∀ d ∈ x.head?, isSpacing d = false) →
    Lexes x xs → Lexes ((rawText front).toList ++ x) (front ++ xs)
  semicolon : ∀ {u : Token} (us : List Token), u.kind = .semicolon → ∃ b : Builder,
    (Builder.start file).run (front ++ u :: us) = b.run us ∧
      b.Stands (some true :: ss) "" (.opening (.root file) {} :: k)
  comment : ∀ {u : Token} {us : List Token}, u.kind = .comment → ClosesNext us →
    ∃ (b : Builder) (k' : List Tag), (Builder.start file).run (front ++ u :: us) = b.run us ∧
      b.Stands (some false :: ss) "" (.opening (.root file) {} :: k') ∧ k'.length = k.length
  written : ∀ m : List Tag, Tag.written false (.opening (.root file) {} :: (k ++ m)) =
    rawText front ++ ((if Tag.asks false m then ";" else "") ++ Tag.written false m)

/-- Text behind tokens takes the place of a closing brace there. -/
theorem Lexes.exchange_brace {cs x : List Char} {b : Token} {xs : List Token}
    (h : Lexes cs (ts ++ b :: rest)) (hb : b.kind = .closeBrace) (hx : Closes x)
    (hhead : ∀ d ∈ x.head?, isSpacing d = false) (hxs : Lexes x xs) :
    Lexes ((rawText ts).toList ++ x) (ts ++ xs) := by
  obtain ⟨r, rfl, hr⟩ := h.exists_append
  obtain ⟨c, u, y, rfl, -, hread, -⟩ := hr.exists_of_cons
  rw [hb] at hread
  obtain ⟨rfl, rfl⟩ : c = '\x7d' ∧ u = [] := by
    have hmarks := Lexeme.marks_of_read hread
    exact List.cons.inj hmarks
  exact h.barrier (p := []) (Or.inr (Or.inr rfl)) rfl hx hxs fun _ _ => hhead

/-- Behind the tokens up to the end of a container, a brace closes it, or can be put there. -/
theorem ReadsBrace.exists_lexes {front : List Token} (hlex : Lexes css.toList (front ++ rest))
    (hrest : ClosesNext rest) (hend : rest = [] → ReadsBrace css) :
    ∃ cs b r, Lexes cs (front ++ b :: r) ∧ b.kind = .closeBrace := by
  cases rest with
  | nil =>
    rw [List.append_nil] at hlex
    exact ⟨_, _, _, (hend rfl).lexes hlex, rfl⟩
  | cons b r => exact ⟨_, b, r, hlex, hrest b rfl⟩

/-- Where a container ends behind a statement without a semicolon. -/
theorem SourceReading.exists_openEnd (htree : (ofSource css file).tree = .ok tree)
    (hfaults : (ofSource css file).faults = [])
    (htags : tree.tags = .opening (.root file) {} :: (k ++ l)) (hl : ClosesOpen l)
    (hend : l.tail = [] → ReadsBrace css) : ∃ front rest ss, OpenEnd file k l front rest ss := by
  obtain ⟨k, T, rfl, hT⟩ := exists_last htree hfaults htags hl
  rw [List.append_assoc] at htags
  obtain ⟨front, us, s, ss, p, q, content, raws, hspot, hq, hclosed, rfl, hlex⟩ :=
    exists_spot htree hfaults htags hT
  obtain ⟨hopen, hends, hreads⟩ := hspot.reads_of_closesOpen hl
  -- the statement has no end of its own
  obtain ⟨hstop, hpass, taken, rfl, hunended⟩ := hq.exists_unended hclosed hopen hends
  obtain ⟨cs, -, hus⟩ := hlex.exists_append
  have hlexical := hus.lexical
  obtain ⟨x, -, hrest⟩ := hus.exists_append
  have htaken : ∀ t ∈ taken, t.kind ≠ .ending := fun t ht =>
    hlexical.ne_ending t (List.mem_append_left _ ht)
  have hclosesNext : ClosesNext q.rest :=
    ((hq.endsInSemicolon_or_closesNext hopen hlexical.ne_ending).resolve_left (by simp [hends])).2
  exact ⟨front ++ taken, q.rest, ss,
    { reads := hreads
      lexes_rest := hrest.rawText_lexes
      closes := hclosesNext
      lexes := fun hx hhead hxs => by
        rw [← List.append_assoc] at hlex
        obtain ⟨cs, b, r, hbrace, hb⟩ := ReadsBrace.exists_lexes hlex hclosesNext fun hnil => by
          rw [hnil] at hreads
          cases hreads with
          | finish => exact hend rfl
          | line hq | block hq => cases hq
        exact hbrace.exchange_brace hb hx hhead hxs
      semicolon := fun us hu => hspot.run_semicolon hunended hpass htaken hopen us hu
      comment := fun hu hus => by
        obtain ⟨b, T, hrun, hb⟩ := hspot.run_comment hunended hpass htaken hu hus
        exact ⟨b, _, hrun, hb, by simp⟩
      written := fun m => by
        rw [List.append_assoc, List.singleton_append]
        exact hspot.written_unended hopen hq hends hlexical m }⟩

end Source

end PixelUnit.Sheet
