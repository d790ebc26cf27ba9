import PixelUnit.Proofs.Sheet.Renewing

/-!
# Reading with new values

A sheet is read again after some of its declarations have got new values. Every step of the old
reading is followed by one of the new reading (`Builder.Step.follows`): the text behind it may have
changed, but behind a colon at most, so that the same tokens are in front, and a statement that gets
a new value ends where it did. So the new text is read without a fault if the old one was, and gives
the same tree but for the new values (`SourceReading.exists_rereading`).
-/

namespace PixelUnit.Sheet

namespace Builder

variable {r : Nat → String → String → Option String} {Q : String → Prop}
  {E : Nat → Content → Raws → Content → Raws → Prop} {b b' b₁ b₁' : Builder} {cs : List Char}
  {ts rest : List Token}

/-- Another reading, which has come to `b'`, can follow a step that leads to `b₁` and leaves `rest`,
whatever it has to read behind. -/
def Follows (E : Nat → Content → Raws → Content → Raws → Prop) (b' : Builder) (cs : List Char)
    (ts : List Token) (b₁ : Builder) (rest : List Token) : Prop :=
  ∃ b₁', Matches E b₁ b₁' ∧ ∃ q, Lexes q rest ∧ ∀ q' rest', Lexes q' rest' → SameToColon q q' →
    rest'.head? = rest.head? → ∃ cs' ts', Lexes cs' ts' ∧ SameToColon cs cs' ∧
      ts'.head? = ts.head? ∧ Step b' ts' b₁' rest'

/-- A step is followed that takes the same tokens. -/
theorem Follows.of_taken {t : Token} (taken : List Token) (hts : ts = t :: (taken ++ rest))
    (hlex : Lexes cs ts) (hmatch : Matches E b₁ b₁')
    (hstep : ∀ rest', rest'.head? = rest.head? → Step b' (t :: (taken ++ rest')) b₁' rest') :
    Follows E b' cs ts b₁ rest := by
  subst hts
  rw [← List.cons_append] at hlex
  obtain ⟨q, rfl, hq⟩ := hlex.exists_append
  refine ⟨b₁', hmatch, q, hq, fun q' rest' hq' hsame hhead => ?_⟩
  exact ⟨_, t :: (taken ++ rest'), hlex.keep rfl hq' hsame, hsame.append _, rfl, hstep rest' hhead⟩

/-- The tokens of a statement and those behind it. The statement is read again before other tokens;
if nothing ends it, its container has to end there. -/
theorem exists_taken {t : Token} {r₀ : List Token} {p : Prelude}
    (hp : p = Prelude.read [] (t :: r₀)) (hne : p.taken ≠ [])
    (hending : ∀ u ∈ t :: r₀, u.kind ≠ .ending) (hclosed : p.unclosed = false) :
    ∃ taken, p.taken = t :: taken ∧ r₀ = taken ++ p.rest ∧
      ∀ rest', (p.stop = none → ClosesNext rest') →
        { p with rest := rest' } = Prelude.read [] (t :: (taken ++ rest')) := by
  have happ := Prelude.taken_append_rest [] (t :: r₀)
  rw [← hp] at happ
  obtain ⟨u, taken, htaken⟩ := List.exists_cons_of_ne_nil hne
  rw [htaken, List.cons_append] at happ
  obtain ⟨rfl, hr⟩ := List.cons.inj happ
  refine ⟨taken, htaken, hr.symm, fun rest' hrest => ?_⟩
  subst hp
  have hagain := Prelude.read_again hending hclosed hrest
  rw [htaken] at hagain
  exact hagain.symm

/-- A statement is followed by itself before other tokens. -/
theorem Follows.statement {t : Token} {r₀ : List Token} {p : Prelude}
    (hp : p = Prelude.read [] (t :: r₀)) (hne : p.taken ≠ []) (hlex : Lexes cs (t :: r₀))
    (hfault : p.fault? = none) (hmatch : Matches E b₁ b₁')
    (hstep : ∀ rest' r', { p with rest := rest' } = Prelude.read [] (t :: r') →
      Step b' (t :: r') b₁' rest') : Follows E b' cs (t :: r₀) b₁ p.rest := by
  have hending := hlex.lexical.ne_ending
  have hclosed : p.unclosed = false := by
    subst hp
    exact Prelude.unclosed_eq_false hfault
  obtain ⟨taken, -, hr, hagain⟩ := exists_taken hp hne hending hclosed
  refine .of_taken taken (by rw [← hr]) hlex hmatch fun rest' hhead =>
    hstep rest' _ (hagain rest' fun hstop => ?_)
  subst hp
  exact (Prelude.closesNext_rest hending hstop).of_head?_eq hhead

/-- The white space and the statement behind an at-keyword, before other tokens. -/
theorem gap_again {r rest' : List Token} {p : Prelude}
    (hp : p = Prelude.read [] (r.dropWhile Token.isSpacing)) (hr : ∀ t ∈ r, t.kind ≠ .ending)
    (hclosed : p.unclosed = false) (hrest : p.stop = none → ClosesNext rest') :
    (r.takeWhile Token.isSpacing ++ (p.taken ++ rest')).takeWhile Token.isSpacing =
        r.takeWhile Token.isSpacing ∧
      { p with rest := rest' } = Prelude.read []
        ((r.takeWhile Token.isSpacing ++ (p.taken ++ rest')).dropWhile Token.isSpacing) := by
  have happ := Prelude.taken_append_rest [] (r.dropWhile Token.isSpacing)
  rw [← hp] at happ
  have hrun : ∀ t ∈ r.takeWhile Token.isSpacing, t.isSpacing = true := fun _ =>
    List.mem_takeWhile_imp
  have hstop : ∀ t ∈ (p.taken ++ rest').head?, t.isSpacing = false := by
    intro t ht
    by_cases hnil : p.taken = []
    · rw [hnil, List.nil_append] at ht
      obtain ⟨-, hnone⟩ := List.append_eq_nil_iff.1 hnil
      have hkind := hrest (Option.toList_eq_nil_iff.1 hnone) t ht
      simp [Token.isSpacing, hkind]
    · rw [List.head?_append_of_ne_nil _ hnil, ← List.head?_append_of_ne_nil _ hnil, happ] at ht
      exact Text.eq_false_of_mem_head?_dropWhile ht
  rw [Text.takeWhile_run hrun hstop, Text.dropWhile_run hrun hstop]
  subst hp
  rw [Prelude.read_again (fun t ht => hr t (List.dropWhile_subset _ ht)) hclosed hrest]
  exact ⟨rfl, rfl⟩

/-- The statement behind an at-keyword is followed by itself before other tokens. -/
theorem Follows.atRule {t : Token} {r₀ : List Token} {p : Prelude}
    (hp : p = Prelude.read [] (r₀.dropWhile Token.isSpacing)) (hlex : Lexes cs (t :: r₀))
    (hfault : p.fault? = none) (hmatch : Matches E b₁ b₁')
    (hstep : ∀ rest' r', r'.takeWhile Token.isSpacing = r₀.takeWhile Token.isSpacing →
      { p with rest := rest' } = Prelude.read [] (r'.dropWhile Token.isSpacing) →
      Step b' (t :: r') b₁' rest') : Follows E b' cs (t :: r₀) b₁ p.rest := by
  have hclosed : p.unclosed = false := by
    subst hp
    exact Prelude.unclosed_eq_false hfault
  have hr₀ : r₀ = r₀.takeWhile Token.isSpacing ++ p.taken ++ p.rest := by
    have happ := Prelude.taken_append_rest [] (r₀.dropWhile Token.isSpacing)
    rw [← hp] at happ
    rw [List.append_assoc, happ, List.takeWhile_append_dropWhile]
  refine .of_taken (r₀.takeWhile Token.isSpacing ++ p.taken) (by rw [← hr₀]) hlex hmatch
    fun rest' hhead => ?_
  have hr₀' : ∀ u ∈ r₀, u.kind ≠ .ending := fun u hu =>
    hlex.lexical.ne_ending u (List.mem_cons_of_mem t hu)
  obtain ⟨hgap, hagain⟩ := gap_again hp hr₀' hclosed fun hstop => by
    subst hp
    have hsub := List.dropWhile_subset (l := r₀) Token.isSpacing
    exact (Prelude.closesNext_rest (fun u hu => hr₀' u (hsub hu)) hstop).of_head?_eq hhead
  rw [List.append_assoc]
  exact hstep rest' _ hgap hagain

/-- A value ends where white space, a semicolon, a closing brace or nothing follows. -/
theorem separates_behind {t : Token} {r₀ rest' : List Token} {p : Prelude}
    (hp : p = Prelude.read [] (t :: r₀)) (hopen : p.opensBlock = false)
    (hending : ∀ u ∈ t :: r₀, u.kind ≠ .ending) (d : DeclarationCut p.tokens)
    (hhead : rest'.head? = p.rest.head?) :
    ∀ u, (d.trail ++ (p.stop.toList ++ rest')).head? = some u → u.kind.Separates := by
  intro u hu
  have htrail : ∀ v ∈ d.trail, v.isSpacing = true := fun v hv => d.spacing v (by simp [hv])
  generalize d.trail = trail at hu htrail
  cases trail with
  | cons v trail =>
    obtain rfl := Option.some.inj hu
    exact Or.inl (by simpa [Token.isSpacing] using htrail v List.mem_cons_self)
  | nil =>
    subst hp
    rcases Prelude.endsInSemicolon_or_closesNext hopen hending with ⟨v, hv, hkind, -⟩ | ⟨hv, -, hc⟩
    · rw [hv] at hu
      obtain rfl := Option.some.inj hu
      exact Or.inr (Or.inl hkind)
    · rw [hv, Option.toList_none, List.nil_append, List.nil_append, hhead] at hu
      exact Or.inr (Or.inr (Or.inr (Or.inl (hc u hu))))

/-- The text of a value that can be read by itself ends where the tokens of the value do. -/
theorem exists_behind_value {t : Token} {r₀ us : List Token} {p : Prelude} {old : List Char}
    (hp : p = Prelude.read [] (t :: r₀)) (hopen : p.opensBlock = false) (hlex : Lexes cs (t :: r₀))
    (d : DeclarationCut p.tokens) (hold : ReadsAlone old us)
    (htext : old = (rawText d.value).toList) :
    d.value = us ∧ ∃ q, Lexes q p.rest ∧ Lexes ((rawText (d.trail ++ p.stop.toList)).toList ++ q)
      (d.trail ++ (p.stop.toList ++ p.rest)) := by
  obtain ⟨y, -, hy⟩ : ∃ y, cs = (rawText (d.prop ++ d.gap ++ d.colon :: d.lead)).toList ++ y ∧
      Lexes y (d.value ++ (d.trail ++ (p.stop.toList ++ p.rest))) := by
    refine Lexes.exists_append ?_
    rw [d.append_behind hp] at hlex
    simpa using hlex
  obtain ⟨x, rfl, hx⟩ := hy.exists_append
  obtain ⟨q, rfl, hq⟩ : ∃ q, x = (rawText (d.trail ++ p.stop.toList)).toList ++ q ∧
      Lexes q p.rest := by
    refine Lexes.exists_append ?_
    rwa [List.append_assoc]
  have hcloses := hx.closes (separates_behind hp hopen hlex.lexical.ne_ending d rfl)
  subst htext
  exact ⟨hold.unique hcloses hx hy, q, hq, hx⟩

open Sheet.Tree in
/-- A declaration with a new value is the old one with that value. -/
theorem matches_exchange (before : String) {p : Prelude} {d : DeclarationCut p.tokens}
    {vs : List Token} {new : String} {i : Nat} (hfeeds : FeedsEscaped p.tokens)
    (hvs : ReadsAlone (new ++ d.markText.getD "").toList vs)
    (hnew : r i (rawText d.prop) d.clean = some new) (hne : new ≠ d.clean)
    (hQ : ∀ important, Q (String.ofList (cleanValue vs important))) :
    Tree.Matches (Renewed r Q) i (.node d.content (d.raws before) [])
      (.node (d.exchange hvs.head hvs.last).content ((d.exchange hvs.head hvs.last).raws before)
        []) := by
  have hlexical := hvs.lexes.lexical.mono (List.subset_append_left vs _)
  refine matches_leaf (.value hnew (hQ _) fun semicolon => ?_)
  refine d.declarationText_exchange (d.forall_mem_tokensWith hfeeds hlexical.feeds) hne ?_ semicolon
  rw [← String.toList_inj]
  exact hvs.rawText_eq

/-- A statement with a new value is read up to where the old one ended. -/
theorem exists_read_exchange {t : Token} {r₀ rest' vs : List Token} {p : Prelude}
    (hp : p = Prelude.read [] (t :: r₀)) (hfault : p.fault? = none)
    (hending : ∀ u ∈ t :: r₀, u.kind ≠ .ending) (d : DeclarationCut p.tokens)
    (hvs : ∀ u ∈ vs, u.kind ≠ .ending) (hhead : rest'.head? = p.rest.head?)
    (hpasses : ∀ awaited, Prelude.Awaits awaited →
      Prelude.passes awaited (vs.map Token.kind) =
        Prelude.passes awaited (d.value.map Token.kind)) :
    ∃ r', d.tokensWith vs ++ (p.stop.toList ++ rest') = t :: r' ∧
      Prelude.read [] (t :: r') = ⟨d.tokensWith vs, p.stop, rest', false⟩ := by
  have hpass : Prelude.passes [] ((d.tokensWith vs).map Token.kind) = some [] := by
    obtain ⟨left, hpass, hleft⟩ := Prelude.passes_tokens [] (t :: r₀)
    rw [hleft.1 (Prelude.unclosed_eq_false (hp ▸ hfault)), ← hp] at hpass
    rw [d.passes_tokensWith hpasses, hpass]
  have hsplit := d.append_behind hp
  obtain ⟨r', hr'⟩ : ∃ r', d.tokensWith vs ++ (p.stop.toList ++ rest') = t :: r' := by
    obtain ⟨u, prop, hprop⟩ := List.exists_cons_of_ne_nil d.prop_ne_nil
    rw [hprop] at hsplit
    obtain ⟨rfl, -⟩ := List.cons.inj hsplit
    exact ⟨_, by rw [DeclarationCut.tokensWith, hprop]; rfl⟩
  refine ⟨r', hr', ?_⟩
  have htokens : ∀ u ∈ p.tokens, u.kind ≠ .ending := fun u hu => hending u (tokens_subset hp hu)
  subst hp
  rw [← hr']
  exact Prelude.read_exchange (d.forall_mem_tokensWith htokens hvs) hpass
    fun hstop => (Prelude.closesNext_rest hending hstop).of_head?_eq hhead

open Sheet.Tree in
/-- A declaration is followed by one with its new value. -/
theorem Follows.exchange {t : Token} {r₀ : List Token} {p : Prelude} {new : String}
    (ht : t.kind.StartsStatement) (hp : p = Prelude.read [] (t :: r₀))
    (hopen : p.opensBlock = false) {d : DeclarationCut p.tokens} (hd : d.Exact)
    (hlex : Lexes cs (t :: r₀)) (hfault : p.fault? = none)
    (hmatch : Matches (Renewed r Q) b b') (hnew : r b.next (rawText d.prop) d.clean = some new)
    (hall : Renewable r Q b.next d.content (d.raws b.pending)) :
    Follows (Renewed r Q) b' cs (t :: r₀) (((b.note p.fault?).setSemicolon p.endsInSemicolon).add
      p.taken (.node d.content (d.raws b.pending) [])) p.rest := by
  obtain ⟨hne, us, vs, ⟨hold, hvs, hvsne, hpasses⟩, hQ⟩ := hall _ _ _ rfl new hnew
  have hending := hlex.lexical.ne_ending
  have hfeeds := hlex.lexical.feeds.mono (tokens_subset hp)
  rw [d.markText_raws, d.writtenValue_raws, d.written_append_markText hfeeds] at hold
  rw [d.markText_raws] at hvs
  -- the old value is read by itself as its tokens in the statement are
  obtain ⟨rfl, q, hq, hx⟩ := exists_behind_value hp hopen hlex d hold rfl
  have hnode := matches_exchange b.pending hfeeds hvs hnew hne hQ
  rw [← hmatch.pending] at hnode
  have hline := (hmatch.note none).setSemicolon p.endsInSemicolon
  rw [hfault, ← hmatch.pending]
  refine ⟨_, hline.add p.taken (d.tokensWith vs ++ p.stop.toList) hnode, q, hq,
    fun q' rest' hq' hsame hhead => ?_⟩
  have hbehind : Lexes ((rawText (d.trail ++ p.stop.toList)).toList ++ q')
      (d.trail ++ (p.stop.toList ++ rest')) := by
    rw [← List.append_assoc] at hx ⊢
    exact hx.keep rfl hq' hsame
  have hlead : ∀ t ∈ d.lead, t.isSpacing = true := fun t ht => d.spacing t (by simp [ht])
  rw [d.append_behind hp, ← List.append_assoc] at hlex
  obtain ⟨cs', hcs', hsame'⟩ := hlex.exchange d.colon_kind hlead hvs hvsne hbehind
    (hbehind.closes (separates_behind hp hopen hending d hhead))
  have hvsending := (hvs.lexes.lexical.mono (List.subset_append_left vs _)).ne_ending
  obtain ⟨r', hr', hread⟩ := exists_read_exchange hp hfault hending d hvsending hhead hpasses
  refine ⟨cs', t :: r', ?_, hsame', rfl,
    .declaration ht hread.symm hopen (d.exchange hvs.head hvs.last) (hd.exchange hvsne)⟩
  rw [← hr', DeclarationCut.tokensWith]
  simpa using hcs'

theorem Matches.skip (h : Matches E b b') (t : Token) : Matches E (b.skip t) (b'.skip t) :=
  ⟨h.frames, by rw [Builder.skip, Builder.skip, h.pending], h.faults⟩

theorem Matches.skipSemicolon (h : Matches E b b') (t : Token) :
    Matches E (b.skipSemicolon t) (b'.skipSemicolon t) :=
  ⟨h.frames, by rw [Builder.skipSemicolon, Builder.skipSemicolon, h.pending], h.faults⟩

open Sheet.Tree in
/-- A declaration that gets no new value is followed by itself. -/
theorem Follows.declaration {t : Token} {r₀ : List Token} {p : Prelude}
    (ht : t.kind.StartsStatement) (hp : p = Prelude.read [] (t :: r₀))
    (hopen : p.opensBlock = false) {d : DeclarationCut p.tokens} (hd : d.Exact)
    (hlex : Lexes cs (t :: r₀)) (hfault : p.fault? = none) (hmatch : Matches (Renewed r Q) b b')
    (hnew : r b.next (rawText d.prop) d.clean = none) :
    Follows (Renewed r Q) b' cs (t :: r₀) (((b.note p.fault?).setSemicolon p.endsInSemicolon).add
      p.taken (.node d.content (d.raws b.pending) [])) p.rest := by
  have hnode : Tree.Matches (Renewed r Q) b.next (.node d.content (d.raws b.pending) [])
      (.node d.content (d.raws b.pending) []) := by
    refine matches_leaf (.same fun prop value important hc => ?_)
    rw [DeclarationCut.content, Content.declaration.injEq] at hc
    obtain ⟨rfl, rfl, -⟩ := hc
    exact hnew
  have hline := (hmatch.note p.fault?).setSemicolon p.endsInSemicolon
  refine .statement hp d.taken_ne_nil hlex hfault (hline.add _ p.taken hnode) fun rest' r' hp' => ?_
  rw [← hmatch.pending]
  exact .declaration ht hp' hopen d hd

open Sheet.Tree in
/-- Every step is followed when the sheet is read with new values. -/
theorem Step.follows (h : Step b ts b₁ rest) (hlex : Lexes cs ts)
    (hmatch : Matches (Renewed r Q) b b') (hall : b₁.AllAt (Renewable r Q))
    (hfaults : b₁.faults = []) : Follows (Renewed r Q) b' cs ts b₁ rest := by
  have hnone : ∀ {p : Prelude}, (b.note p.fault?).faults = [] → p.fault? = none := fun h => by
    simpa using (List.append_eq_nil_iff.1 h).2
  cases h with
  | space ht => exact .of_taken [] rfl hlex (hmatch.skip _) fun rest' _ => .space ht
  | semicolon ht =>
    exact .of_taken [] rfl hlex (hmatch.skipSemicolon _) fun rest' _ => .semicolon ht
  | @close t _ f fs ht hb =>
    obtain ⟨f', fs', hb', hclosed⟩ := hmatch.close keepsContainers_renewed t hb
    exact .of_taken [] rfl hlex hclosed fun rest' _ => .close ht hb'
  | @comment t _ ht =>
    have hnode : Tree.Matches (Renewed r Q) b.next (commentNode b.pending t)
        (commentNode b'.pending t) := by
      rw [hmatch.pending]
      exact matches_leaf (.of_not_declaration _ (by rintro _ _ _ ⟨⟩))
    exact .of_taken [] rfl hlex (hmatch.add [t] [t] hnode) fun rest' _ => .comment ht
  | @atBlock t r₀ gap p ht hgap hp hopen =>
    subst hgap
    refine .atRule hp hlex (hnone hfaults) ((hmatch.note p.fault?).openBlock _ _ rfl)
      fun rest' r' hgap' hp' => ?_
    rw [← hmatch.pending, ← hgap']
    exact .atBlock ht rfl hp' hopen
  | @atLine t r₀ gap p ht hgap hp hopen =>
    subst hgap
    have hline := (hmatch.note p.fault?).setSemicolon p.endsInSemicolon
    refine .atRule hp hlex (hnone hfaults)
      (hline.add _ (t :: r₀.takeWhile Token.isSpacing ++ p.taken)
        (matches_leaf (.of_not_declaration _ (by rintro _ _ _ ⟨⟩)))) fun rest' r' hgap' hp' => ?_
    rw [← hmatch.pending, ← hgap']
    exact .atLine ht rfl hp' hopen
  | @rule t r₀ p ht hp hopen =>
    refine .statement hp (Prelude.taken_ne_nil_of_opensBlock hopen) hlex (hnone hfaults)
      ((hmatch.note p.fault?).openBlock _ _ rfl) fun rest' r' hp' => ?_
    rw [← hmatch.pending]
    exact .rule ht hp' hopen
  | @declaration t r₀ p ht hp hopen d hd =>
    have hfault := hnone hfaults
    -- A declaration has a new value, or stays what it is.
    cases hnew : r b.next (rawText d.prop) d.clean with
    | some new =>
      exact .exchange ht hp hopen hd hlex hfault hmatch hnew (Frame.stackAll_add.1 hall).2.1
    | none => exact .declaration ht hp hopen hd hlex hfault hmatch hnew

open Sheet.Tree in
/-- A reading with new values ends as the old one did. -/
theorem exists_rereading {tree : Tree} (hok : (b.run ts).result = .ok tree)
    (hnone : (b.run ts).faults = []) (hall : tree.AllAt (Renewable r Q) 0) (hlex : Lexes cs ts)
    (hmatch : Matches (Renewed r Q) b b') :
    ∃ cs' ts' tree', Lexes cs' ts' ∧ SameToColon cs cs' ∧ ts'.head? = ts.head? ∧
      (b'.run ts').result = .ok tree' ∧ (b'.run ts').faults = [] ∧
      Tree.Matches (Renewed r Q) 0 tree tree' := by
  refine run_induction (P := fun b ts => ∀ cs b', (b.run ts).result = .ok tree →
    (b.run ts).faults = [] → Lexes cs ts → Matches (Renewed r Q) b b' →
    ∃ cs' ts' tree', Lexes cs' ts' ∧ SameToColon cs cs' ∧ ts'.head? = ts.head? ∧
      (b'.run ts').result = .ok tree' ∧ (b'.run ts').faults = [] ∧
      Tree.Matches (Renewed r Q) 0 tree tree') ?_ ?_ b ts hok cs b' hok hnone hlex hmatch
  · intro b ts pos hend hrun cs b' hok hnone hlex hmatch
    obtain rfl := hend.eq_nil hlex.lexical.ne_ending
    rw [hrun] at hok hnone
    obtain ⟨tree', hok', hnone', htrees⟩ := hmatch.finish keepsContainers_renewed hok hnone
    refine ⟨[], [], tree', .nil, Or.inl hlex.eq_nil.symm, rfl, ?_, ?_, htrees⟩
    · rw [run]
      exact hok'
    · rw [run]
      exact hnone'
  · intro b ts b₁ rest hstep ih cs b' hok hnone hlex hmatch
    rw [hstep.run_eq] at hok hnone
    obtain ⟨b₁', hmatch', q, hq, hfollow⟩ := hstep.follows hlex hmatch (allAt_of_run hok hall)
      (faults_of_run hok hnone)
    obtain ⟨q', rest', tree', hq', hsame, hhead, hok', hnone', htrees⟩ :=
      ih q b₁' hok hnone hq hmatch'
    obtain ⟨cs', ts', hcs', hsame', hhead', hstep'⟩ := hfollow q' rest' hq' hsame hhead
    refine ⟨cs', ts', tree', hcs', hsame', hhead', ?_, ?_, htrees⟩
    · rwa [hstep'.run_eq]
    · rwa [hstep'.run_eq]

end Builder

/-! ## Sources -/

namespace SourceReading

variable {css : String} {file : Option String} {tree : Tree}
  {r : Nat → String → String → Option String} {Q : String → Prop}

theorem matches_start (E : Nat → Content → Raws → Content → Raws → Prop) (file : Option String) :
    Builder.Matches E (.start file) (.start file) :=
  ⟨⟨⟨rfl, rfl, rfl, trivial⟩, trivial⟩, rfl, rfl⟩

/-- A reading of tokens without places is the reading of a source that is read as them. -/
theorem of_lexes {ts : List Token} (hlex : Lexes css.toList ts)
    (hok : (Reading.ofTokens ts file).result = .ok tree)
    (hnone : (Reading.ofTokens ts file).faults = []) :
    (ofSource css file).tree = .ok tree ∧ (ofSource css file).faults = [] := by
  obtain ⟨hfailure, hfaults, hbare⟩ := hlex.scanSource
  have halike := (Reading.ofTokens_map_bare (scanSource css).tokens file).symm
  rw [hbare] at halike
  constructor
  · simp only [SourceReading.tree, ofSource, hfailure]
    exact halike.ok hok
  · simp only [faults, ofSource, hfailure, hfaults, halike.faults_eq_nil hnone, List.append_nil]

/-- A source that is read without a fault is read as tokens without places. -/
theorem exists_lexes (htree : (ofSource css file).tree = .ok tree)
    (hfaults : (ofSource css file).faults = []) :
    ∃ ts, Lexes css.toList ts ∧ (Reading.ofTokens ts file).result = .ok tree ∧
      (Reading.ofTokens ts file).faults = [] := by
  obtain ⟨hfailure, -, hresult, hsub⟩ := tokens_of_tree htree
  rw [hfaults] at hsub
  have halike := Reading.ofTokens_map_bare (scanSource css).tokens file
  exact ⟨_, Lexes.of_scanSource hfailure (List.append_eq_nil_iff.1 hfaults).1, halike.ok hresult,
    halike.faults_eq_nil (List.subset_nil.1 hsub)⟩

/-- A sheet that is read without a fault can be read without a fault again after its declarations
have got new values, if each can be read with its value: the tree is the same but for these
values, and it is written as the old one with them. -/
theorem exists_rereading (htree : (ofSource css file).tree = .ok tree)
    (hfaults : (ofSource css file).faults = []) (hall : tree.AllAt (Tree.Renewable r Q) 0) :
    ∃ tree', (ofSource ((tree.mapValues r 0).text false) file).tree = .ok tree' ∧
      (ofSource ((tree.mapValues r 0).text false) file).faults = [] ∧
      Tree.Matches (Tree.Renewed r Q) 0 tree tree' := by
  obtain ⟨ts, hlex, hok, hnone⟩ := exists_lexes htree hfaults
  obtain ⟨cs', ts', tree', hlex', -, -, hok', hnone', hmatches⟩ :=
    Builder.exists_rereading hok hnone hall hlex (matches_start _ file)
  have hout : Lexes (String.ofList cs').toList ts' := by rwa [String.toList_ofList]
  obtain ⟨htree', hfaults'⟩ := of_lexes hout hok' hnone'
  have htext := text_eq_source htree' (by rw [hfaults']; nofun)
  rw [hmatches.text_eq false] at htext
  rw [htext]
  exact ⟨tree', htree', hfaults', hmatches⟩

end SourceReading

end PixelUnit.Sheet
