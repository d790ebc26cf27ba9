import PixelUnit.Proofs.Sheet.FlatReading
import PixelUnit.Proofs.Sheet.Rereading
import PixelUnit.Proofs.Sheet.Sealed

/-!
# Readings cut between tags

A reading can be cut behind the last token of any of its tags (`ReadsTags.exists_cut`): what stands
in front is read in the same way before other tokens, unless a statement without a semicolon stands
at the cut, which only the end of its container ends. How the tokens behind the cut are read depends
on the number of the open containers alone, as far as what the nodes say goes
(`ReadsTags.exists_plain`).
-/

namespace PixelUnit.Sheet

/-! ## Statements before other tokens -/

theorem Prelude.getLast?_taken (q : Prelude) {t : Token} (ht : q.stop = some t) :
    q.taken.getLast? = some t := by
  rw [taken, ht, Option.toList_some, List.getLast?_concat]

namespace Statement

variable {ts : List Token} {q : Prelude} {content : Content} {raws : String → Raws}

/-- A statement that opens no block ends in a semicolon if it is asked to. -/
theorem text_true (h : Statement ts q content raws) (hopen : q.opensBlock = false)
    (before : String) : (Tree.node content (raws before) []).text true =
      (Tree.node content (raws before) []).text false ++ ";" := by
  cases h with
  | atRule => simp [hopen, Tree.text]
  | rule _ _ hopen' => rw [hopen] at hopen'; cases hopen'
  | declaration => simp [DeclarationCut.content, Tree.text, Tree.declarationText]

/-- Neither white space nor a semicolon starts a statement. -/
theorem not_passed (h : Statement ts q content raws) :
    ∀ t ∈ ts.head?, ¬(t.kind = .spacing ∨ t.kind = .semicolon) := by
  rintro u hu
  cases h with
  | atRule ht =>
    obtain rfl := Option.some.inj hu
    rw [ht]
    decide
  | rule ht | declaration ht =>
    obtain rfl := Option.some.inj hu
    exact fun hpassed => hpassed.elim ht.2.1 ht.2.2.1

/-- A statement is not cut off if what it is made of is read in the same way before other tokens. -/
theorem exists_taken_of_read {t : Token} {r : List Token}
    (hq : q = Prelude.read [] (t :: r)) (hne : q.taken ≠ [])
    (hts : ∀ u ∈ t :: r, u.kind ≠ .ending) (hclosed : q.unclosed = false)
    (hagain : ∀ rest r', { q with rest := rest } = Prelude.read [] (t :: r') →
      Statement (t :: r') { q with rest := rest } content raws) :
    ∃ taken, t :: r = taken ++ q.rest ∧ taken ≠ [] ∧
      (∀ u, q.stop = some u → taken.getLast? = some u) ∧
      ∀ rest, (q.stop = none → ClosesNext rest) →
        Statement (taken ++ rest) { q with rest := rest } content raws := by
  obtain ⟨taken, htaken, hr, hread⟩ := Builder.exists_taken hq hne hts hclosed
  refine ⟨t :: taken, by rw [List.cons_append, ← hr], List.cons_ne_nil _ _, fun u hu => ?_,
    fun rest hrest => hagain rest _ (hread rest hrest)⟩
  rw [← htaken, q.getLast?_taken hu]

/-- The tokens of a statement and what ends it, which are read again before other tokens. -/
theorem exists_taken (h : Statement ts q content raws) (hts : ∀ t ∈ ts, t.kind ≠ .ending)
    (hclosed : q.unclosed = false) : ∃ taken, ts = taken ++ q.rest ∧ taken ≠ [] ∧
      (∀ t, q.stop = some t → taken.getLast? = some t) ∧
      ∀ rest, (q.stop = none → ClosesNext rest) →
        Statement (taken ++ rest) { q with rest := rest } content raws := by
  cases h with
  | @atRule t r _ ht hq =>
    have hr : ∀ u ∈ r, u.kind ≠ .ending := fun u hu => hts u (List.mem_cons_of_mem t hu)
    have happ := Prelude.taken_append_rest [] (r.dropWhile Token.isSpacing)
    rw [← hq] at happ
    refine ⟨t :: (r.takeWhile Token.isSpacing ++ q.taken), ?_, List.cons_ne_nil _ _, fun u hu => ?_,
      fun rest hrest => ?_⟩
    · rw [List.cons_append, List.append_assoc, happ, List.takeWhile_append_dropWhile]
    · rw [← List.cons_append, List.getLast?_append, q.getLast?_taken hu, Option.some_or]
    · obtain ⟨hgap, hread⟩ := Builder.gap_again hq hr hclosed hrest
      have hnew := Statement.atRule ht hread
      rw [hgap] at hnew
      rw [List.cons_append, List.append_assoc]
      exact hnew
  | rule ht hq hopen =>
    have hne := Prelude.taken_ne_nil_of_opensBlock hopen
    exact exists_taken_of_read hq hne hts hclosed fun rest r' hread => .rule ht hread hopen
  | declaration ht hq hopen d hd =>
    exact exists_taken_of_read hq d.taken_ne_nil hts hclosed fun rest r' hread =>
      .declaration ht hread hopen d hd

end Statement

namespace ReadsTags

/-! ## What does not count -/

/-- What the nodes say does not depend on the text since the last node and on the semicolons behind
earlier ones. -/
theorem exists_plain {ss : List (Option Bool)} {p : String} {ts : List Token} {l : List Tag}
    (h : ReadsTags ss p ts l) : ∀ {ss' : List (Option Bool)} (p' : String),
    ss'.length = ss.length → ∃ l', ReadsTags ss' p' ts l' ∧
      l'.map Tag.plain = l.map Tag.plain := by
  induction h with
  | finish =>
    intro ss' p' hlen
    obtain ⟨s', rfl⟩ := List.length_eq_one_iff.1 hlen
    exact ⟨_, .finish, rfl⟩
  | pass ht _ ih =>
    intro ss' p' hlen
    obtain ⟨l', hl', hplain⟩ := ih (p' ++ _) hlen
    exact ⟨l', .pass ht hl', hplain⟩
  | close ht _ ih =>
    intro ss' p' hlen
    match ss', hlen with
    | s :: s' :: ss', hlen =>
      obtain ⟨l', hl', hplain⟩ := ih "" (Nat.succ.inj hlen)
      exact ⟨_, .close ht hl', by rw [List.map_cons, List.map_cons, hplain]; rfl⟩
  | comment ht _ ih =>
    intro ss' p' hlen
    obtain ⟨l', hl', hplain⟩ := ih "" hlen
    exact ⟨_, .comment ht hl', by rw [List.map_cons, List.map_cons, hplain]; rfl⟩
  | line hq hopen hclosed _ ih =>
    intro ss' p' hlen
    match ss', hlen with
    | s' :: ss', hlen =>
      obtain ⟨l', hl', hplain⟩ := ih "" (List.length_cons.trans hlen)
      exact ⟨_, .line hq hopen hclosed hl', by rw [List.map_cons, List.map_cons, hplain]; rfl⟩
  | block hq hopen hclosed _ ih =>
    intro ss' p' hlen
    match ss', hlen with
    | s' :: ss', hlen =>
      have hlen' : (none :: s' :: ss').length = _ := congrArg Nat.succ hlen
      obtain ⟨l', hl', hplain⟩ := ih "" hlen'
      exact ⟨_, .block hq hopen hclosed hl', by rw [List.map_cons, List.map_cons, hplain]; rfl⟩

/-! ## Cuts -/

theorem notes_ne_nil {ss : List (Option Bool)} {p : String} {ts : List Token} {l : List Tag}
    (h : ReadsTags ss p ts l) : ss ≠ [] := by
  induction h with
  | finish | close | line | block => exact List.cons_ne_nil _ _
  | pass _ _ ih | comment _ _ ih => exact ih

/-- The tokens of a reading are cut behind those of the tags `k`. -/
structure Cut (ss : List (Option Bool)) (p : String) (k l : List Tag) (front back : List Token)
    (s : Option Bool) (ss' : List (Option Bool)) : Prop where
  reads : ReadsTags (s :: ss') "" back l
  ends : s = some false → ClosesNext back
  outer : some false ∉ ss'
  runs : ∀ {b : Builder} {ls : List Tag} {r : List Token}, b.Stands ss p ls →
    (s = some false → ClosesNext r) → ∃ b' : Builder, b.run (front ++ r) = b'.run r ∧
      b'.Stands (s :: ss') "" (ls ++ k)
  nil : k = [] → front = [] ∧ s :: ss' = ss
  closed : k ≠ [] → EndsClosed front ∨ s = some false ∧ front ≠ []
  written : k ≠ [] → Tag.written true k =
    p ++ rawText front ++ if s = some false then ";" else ""

theorem Cut.refl {s : Option Bool} {ss : List (Option Bool)} {ts : List Token} {l : List Tag}
    (h : ReadsTags (s :: ss) "" ts l) (hs : s = some false → ClosesNext ts)
    (houter : some false ∉ ss) : Cut (s :: ss) "" [] l [] ts s ss where
  reads := h
  ends := hs
  outer := houter
  runs hb _ := ⟨_, rfl, by rwa [List.append_nil]⟩
  nil _ := ⟨rfl, rfl⟩
  closed hne := absurd rfl hne
  written hne := absurd rfl hne

theorem Cut.front_ne_nil {s : Option Bool} {ss ss' : List (Option Bool)} {p : String}
    {k l : List Tag} {front back : List Token} (h : Cut ss p k l front back s ss') (hk : k ≠ []) :
    front ≠ [] := by
  rcases h.closed hk with hclosed | ⟨-, hne⟩
  · exact hclosed.ne_nil
  · exact hne

/-- One more token in front, which is a tag of its own. -/
theorem Cut.cons {s : Option Bool} {ss ss₀ ss' : List (Option Bool)} {p : String} {k l : List Tag}
    {front back : List Token} {t : Token} {tag : Tag} (h : Cut ss "" k l front back s ss')
    (hkind : t.kind = .closeBrace ∨ t.kind = .comment)
    (hruns : ∀ {b : Builder} {ls : List Tag}, b.Stands ss₀ p ls → ∀ r : List Token,
      ∃ b' : Builder, b.run (t :: r) = b'.run r ∧ b'.Stands ss "" (ls ++ [tag]))
    (hs : k = [] → s ≠ some false)
    (htext : ∀ semicolon, tag.text semicolon = p ++ t.raw) :
    Cut ss₀ p (tag :: k) l (t :: front) back s ss' where
  reads := h.reads
  ends := h.ends
  outer := h.outer
  runs {b ls r} hb hr := by
    obtain ⟨b₁, hrun, hb₁⟩ := hruns hb (front ++ r)
    obtain ⟨b', hrun', hb'⟩ := h.runs hb₁ hr
    exact ⟨b', hrun.trans hrun', by rwa [List.append_cons]⟩
  nil hk := absurd hk (List.cons_ne_nil _ _)
  closed _ := by
    by_cases hk : k = []
    · rw [(h.nil hk).1]
      refine Or.inl ⟨t, rfl, ?_⟩
      exact hkind.elim (fun h => Or.inr (Or.inr (Or.inl h))) fun h => Or.inr (Or.inr (Or.inr h))
    · exact (h.closed hk).imp (·.append [t]) fun ⟨hs, _⟩ => ⟨hs, List.cons_ne_nil _ _⟩
  written _ := by
    rw [Tag.written, htext, rawText_cons]
    by_cases hk : k = []
    · rw [(h.nil hk).1, hk, if_neg (hs hk)]
      simp [Tag.written]
    · rw [h.written hk]
      simp only [String.append_assoc, String.empty_append]

/-- No container is still open behind a last child without a semicolon, but the innermost one at
its end. -/
structure Fits (ss : List (Option Bool)) (ts : List Token) : Prop where
  outer : some false ∉ ss.tail
  inner : ss.head? = some (some false) → ClosesNext ts

/-- Containers that fit stay so where their ends are not next. -/
theorem Fits.not_mem {ss : List (Option Bool)} {ts : List Token} (h : Fits ss ts)
    (hts : ¬ClosesNext ts) : some false ∉ ss := by
  cases ss with
  | nil => exact List.not_mem_nil
  | cons s ss =>
    intro hmem
    rcases List.mem_cons.1 hmem with hs | hmem
    · exact hts (h.inner (congrArg some hs.symm))
    · exact h.outer hmem

theorem Fits.of_not_mem {ss : List (Option Bool)} (h : some false ∉ ss) (ts : List Token) :
    Fits ss ts where
  outer hmem := h (List.mem_of_mem_tail hmem)
  inner hhead := absurd (List.mem_of_mem_head? hhead) h

/-- The token that closes a container in front. -/
theorem Cut.close {s s' s₁ : Option Bool} {ss ss' : List (Option Bool)} {p : String}
    {k l : List Tag} {front back : List Token} {t : Token}
    (h : Cut (s' :: ss) "" k l front back s₁ ss') (ht : t.kind = .closeBrace)
    (hraw : t.raw = "\x7d") (hss : some false ∉ s' :: ss) :
    Cut (s :: s' :: ss) p (.closing "\x7d" (some p) s :: k) l (t :: front) back s₁ ss' := by
  refine h.cons (Or.inl ht) (fun hb => hb.close ht) (fun hk hs => ?_) fun semicolon => ?_
  · obtain ⟨rfl, -⟩ := List.cons.inj (h.nil hk).2
    exact hss (hs ▸ List.mem_cons_self)
  · rw [Tag.text_closing, hraw]
    rfl

/-- A comment in front. -/
theorem Cut.comment {s : Option Bool} {ss ss' : List (Option Bool)} {p : String} {k l : List Tag}
    {front back : List Token} {t : Token} (h : Cut ss "" k l front back s ss')
    (ht : t.kind = .comment) (hmarks : t.kind.Marks t.raw.toList) (hss : some false ∉ ss) :
    Cut ss p (.leaf (commentNode p t).content (commentNode p t).raws :: k) l (t :: front) back
      s ss' := by
  refine h.cons (Or.inr ht) (fun hb => hb.comment ht) (fun hk hs => ?_) (text_comment ht hmarks p)
  rw [← (h.nil hk).2, hs] at hss
  exact hss List.mem_cons_self

/-- A statement that opens no block in front. -/
theorem Cut.line (s₀ : Option Bool) (p : String) {s : Option Bool} {ss ss' : List (Option Bool)}
    {k l : List Tag} {ts front back : List Token} {q : Prelude} {content : Content}
    {raws : String → Raws} (h : Cut (some q.endsInSemicolon :: ss) "" k l front back s ss')
    (hq : Statement ts q content raws) (hopen : q.opensBlock = false) (hclosed : q.unclosed = false)
    (hrest : q.rest = front ++ back)
    (hreads : ReadsTags (some q.endsInSemicolon :: ss) "" q.rest (k ++ l)) (hts : Lexical ts) :
    ∃ taken, ts = taken ++ (front ++ back) ∧
      Cut (s₀ :: ss) p (.leaf content (raws p) :: k) l (taken ++ front) back s ss' := by
  obtain ⟨taken, htaken, hne, hlast, hagain⟩ := hq.exists_taken hts.ne_ending hclosed
  have hends := hq.endsInSemicolon_or_closesNext hopen hts.ne_ending
  have hflag : k = [] → s = some q.endsInSemicolon := fun hk => (List.cons.inj (h.nil hk).2).1
  have hstop : q.endsInSemicolon = true → EndsClosed taken := by
    intro h
    obtain ⟨u, hu, hkind⟩ := (Option.any_eq_true _ _).1 h
    exact ⟨u, hlast u hu, Or.inl (by simpa using hkind)⟩
  have htext : (Tree.node content (raws p) []).text q.endsInSemicolon = p ++ rawText taken := by
    have h := hq.text_leaf hopen hts p
    rw [htaken, rawText_append, ← String.append_assoc] at h
    exact (String.append_left_inj _).1 h
  refine ⟨taken, hrest ▸ htaken, h.reads, h.ends, h.outer, fun {b ls r} hb hr => ?_, fun hk => ?_,
    fun _ => ?_, fun _ => ?_⟩
  · have hq' := hagain (front ++ r) fun hnone => ?_
    · obtain ⟨b₁, hrun, hb₁⟩ := hb.line hq' hopen hclosed
      obtain ⟨b', hrun', hb'⟩ := h.runs hb₁ hr
      rw [List.append_assoc, List.append_cons]
      exact ⟨b', hrun.trans hrun', hb'⟩
    -- a statement without a semicolon is followed by the end of its container
    have hsemicolon : q.endsInSemicolon = false := by rw [Prelude.endsInSemicolon, hnone]; rfl
    by_cases hk : k = []
    · rw [(h.nil hk).1, List.nil_append]
      exact hr (by rw [hflag hk, hsemicolon])
    · have hnext := (hends.resolve_left (by simp [hsemicolon])).2
      rw [hrest] at hnext
      obtain ⟨t, r, hfront⟩ := List.exists_cons_of_ne_nil (h.front_ne_nil hk)
      rw [hfront] at hnext ⊢
      exact hnext
  · exact absurd hk (List.cons_ne_nil _ _)
  · by_cases hk : k = []
    · rw [(h.nil hk).1, List.append_nil, hflag hk]
      rcases hends with hends | ⟨hends, -⟩
      · exact Or.inl (hstop hends)
      · exact Or.inr ⟨by rw [hends], hne⟩
    · exact (h.closed hk).imp (·.append taken) (And.imp_right fun _ => by simp [hne])
  · show (Tree.node content (raws p) []).text _ ++ _ = _
    by_cases hk : k = []
    · subst hk
      rw [(h.nil rfl).1, List.append_nil, hflag rfl]
      rcases hends with hends | ⟨hends, -⟩
      · rw [hends] at htext ⊢
        simp [Tag.asks, Tag.written, htext]
      · rw [hends] at htext ⊢
        simp [Tag.asks, Tag.written, hq.text_true hopen, htext]
    · rw [asks_eq_endsInSemicolon hq hopen hts.ne_ending hreads (List.prefix_append k l) hk, htext,
        h.written hk, rawText_append]
      simp only [String.append_assoc, String.empty_append]

/-- A statement that opens a block in front. -/
theorem Cut.block {s₀ s : Option Bool} {ss ss' : List (Option Bool)} {p : String}
    {k l : List Tag} {ts front back : List Token} {q : Prelude} {content : Content}
    {raws : String → Raws} (h : Cut (none :: s₀ :: ss) "" k l front back s ss')
    (hq : Statement ts q content raws) (hopen : q.opensBlock = true) (hclosed : q.unclosed = false)
    (hrest : q.rest = front ++ back) (hts : Lexical ts) :
    ∃ taken, ts = taken ++ (front ++ back) ∧
      Cut (s₀ :: ss) p (.opening content (raws p) :: k) l (taken ++ front) back s ss' := by
  obtain ⟨taken, htaken, hne, hlast, hagain⟩ := hq.exists_taken hts.ne_ending hclosed
  obtain ⟨u, hu, hkind⟩ := (Option.any_eq_true _ _).1 hopen
  have hstop : EndsClosed taken := ⟨u, hlast u hu, Or.inr (Or.inl (by simpa using hkind))⟩
  have htext : Frame.head ⟨content, raws p, []⟩ = p ++ rawText taken := by
    have h := hq.text_opening hopen hts p
    rw [htaken, rawText_append, ← String.append_assoc] at h
    exact (String.append_left_inj _).1 h
  refine ⟨taken, hrest ▸ htaken, h.reads, h.ends, h.outer, fun {b ls r} hb hr => ?_, fun hk => ?_,
    fun _ => ?_, fun _ => ?_⟩
  · have hq' := hagain (front ++ r) fun hnone => by
      rw [hnone] at hu
      cases hu
    obtain ⟨b₁, hrun, hb₁⟩ := hb.block hq' hopen hclosed
    obtain ⟨b', hrun', hb'⟩ := h.runs hb₁ hr
    rw [List.append_assoc, List.append_cons]
    exact ⟨b', hrun.trans hrun', hb'⟩
  · exact absurd hk (List.cons_ne_nil _ _)
  · by_cases hk : k = []
    · rw [(h.nil hk).1, List.append_nil]
      exact Or.inl hstop
    · exact (h.closed hk).imp (·.append taken) (And.imp_right fun _ => by simp [hne])
  · show Frame.head ⟨content, raws p, []⟩ ++ _ = _
    by_cases hk : k = []
    · subst hk
      have hs : s = none := (List.cons.inj (h.nil rfl).2).1
      rw [(h.nil rfl).1, List.append_nil, hs, htext]
      simp [Tag.written]
    · rw [htext, h.written hk, rawText_append]
      simp only [String.append_assoc, String.empty_append]

/-- A reading is cut in front of everything. -/
theorem exists_cut_nil {ss : List (Option Bool)} {ts : List Token} {l : List Tag}
    (h : ReadsTags ss "" ts l) (hfits : Fits ss ts) : ∃ front back s ss', ts = front ++ back ∧
      Cut ss "" [] l front back s ss' := by
  obtain ⟨s, ss, rfl⟩ := List.exists_cons_of_ne_nil h.notes_ne_nil
  exact ⟨[], ts, s, ss, rfl, .refl h (fun hs => hfits.inner (congrArg some hs)) hfits.outer⟩

/-- A reading that can be cut behind one tag or more can be cut behind any number of them. -/
theorem exists_cut_of_cons {ss : List (Option Bool)} {ts : List Token} {k l : List Tag}
    (h : ReadsTags ss "" ts (k ++ l)) (hfits : Fits ss ts)
    (hcons : ∀ {tag : Tag} {k' : List Tag}, k ++ l = tag :: (k' ++ l) →
      ∃ front back s ss', ts = front ++ back ∧ Cut ss "" (tag :: k') l front back s ss') :
    ∃ front back s ss', ts = front ++ back ∧ Cut ss "" k l front back s ss' := by
  cases k with
  | nil => exact exists_cut_nil h hfits
  | cons tag k => exact hcons rfl

/-- A token in front that is no node of its own. -/
theorem Cut.pass {s : Option Bool} {ss ss' : List (Option Bool)} {p : String} {k l : List Tag}
    {front back : List Token} {t : Token} (h : Cut ss (p ++ t.raw) k l front back s ss')
    (ht : t.kind = .spacing ∨ t.kind = .semicolon) (hk : k ≠ []) :
    Cut ss p k l (t :: front) back s ss' where
  reads := h.reads
  ends := h.ends
  outer := h.outer
  runs {b ls r} hb hr := by
    obtain ⟨b₁, hrun, hb₁⟩ := hb.pass ht (front ++ r)
    obtain ⟨b', hrun', hb'⟩ := h.runs hb₁ hr
    exact ⟨b', hrun.trans hrun', hb'⟩
  nil hnil := absurd hnil hk
  closed _ := (h.closed hk).imp (·.append [t]) fun ⟨hs, _⟩ => ⟨hs, List.cons_ne_nil _ _⟩
  written _ := by
    rw [h.written hk, rawText_cons]
    simp only [String.append_assoc]

/-- Behind a statement that opens no block its container may be at its end. -/
theorem Fits.line {s : Option Bool} {ss : List (Option Bool)} {ts : List Token} {q : Prelude}
    {content : Content} {raws : String → Raws} (h : Fits (s :: ss) ts)
    (hq : Statement ts q content raws) (hopen : q.opensBlock = false) (hts : Lexical ts) :
    Fits (some q.endsInSemicolon :: ss) q.rest where
  outer hin := h.not_mem hq.not_closesNext (List.mem_cons_of_mem s hin)
  inner hhead := by
    rcases hq.endsInSemicolon_or_closesNext hopen hts.ne_ending with hends | ⟨-, hnext⟩
    · rw [hends] at hhead
      cases hhead
    · exact hnext

/-- A reading can be cut behind its first tag, and behind more of them. -/
theorem exists_cut_cons {ss : List (Option Bool)} {p : String} {ts : List Token} {m : List Tag}
    (h : ReadsTags ss p ts m) : ∀ {tag : Tag} {k l : List Tag}, m = tag :: (k ++ l) → l ≠ [] →
    Fits ss ts → Lexical ts → ∃ front back s ss', ts = front ++ back ∧
      Cut ss p (tag :: k) l front back s ss' := by
  induction h with
  | finish =>
    rintro tag k l hm hl - -
    exact absurd (List.append_eq_nil_iff.1 (List.cons.inj hm).2.symm).2 hl
  -- White space and semicolons in front of the tag are in front of the cut.
  | @pass ss p t r m ht h ih =>
    intro tag k l hm hl hfits hts
    have hnext : ¬ClosesNext (t :: r) := fun hnext => by
      rcases ht with ht | ht <;> rw [hnext t rfl] at ht <;> cases ht
    obtain ⟨front, back, s, ss', rfl, hcut⟩ := ih hm hl (.of_not_mem (hfits.not_mem hnext) _)
      (hts.mono (List.subset_cons_self _ _))
    exact ⟨t :: front, back, s, ss', rfl, hcut.pass ht (List.cons_ne_nil _ _)⟩
  | @close s s' ss p t r m ht h ih =>
    intro tag k l hm hl hfits hts
    obtain ⟨rfl, rfl⟩ := List.cons.inj hm
    have hfits' : Fits (s' :: ss) r := .of_not_mem hfits.outer r
    obtain ⟨front, back, s₁, ss', rfl, hcut⟩ := exists_cut_of_cons h hfits' fun hm =>
      ih hm hl hfits' (hts.mono (List.subset_cons_self _ _))
    have hraw := (hts.raw_eq List.mem_cons_self).2.1 ht
    exact ⟨t :: front, back, s₁, ss', rfl, hcut.close ht hraw hfits.outer⟩
  | @comment ss p t r m ht h ih =>
    intro tag k l hm hl hfits hts
    obtain ⟨rfl, rfl⟩ := List.cons.inj hm
    have hnext : ¬ClosesNext (t :: r) := fun hnext => by
      rw [hnext t rfl] at ht
      cases ht
    have hmem := hfits.not_mem hnext
    have hfits' : Fits ss r := .of_not_mem hmem r
    obtain ⟨front, back, s₁, ss', rfl, hcut⟩ := exists_cut_of_cons h hfits' fun hm =>
      ih hm hl hfits' (hts.mono (List.subset_cons_self _ _))
    exact ⟨t :: front, back, s₁, ss', rfl,
      hcut.comment ht (hts.marks t List.mem_cons_self) hmem⟩
  | @line s ss p ts q content raws m hq hopen hclosed h ih =>
    intro tag k l hm hl hfits hts
    obtain ⟨rfl, rfl⟩ := List.cons.inj hm
    have hfits' := hfits.line hq hopen hts
    obtain ⟨front, back, s₁, ss', hrest, hcut⟩ := exists_cut_of_cons h hfits' fun hm =>
      ih hm hl hfits' (hts.mono hq.rest_suffix.subset)
    obtain ⟨taken, htaken, hcut'⟩ := hcut.line s p hq hopen hclosed hrest h hts
    exact ⟨taken ++ front, back, s₁, ss', by rw [htaken, List.append_assoc], hcut'⟩
  | @block s ss p ts q content raws m hq hopen hclosed h ih =>
    intro tag k l hm hl hfits hts
    obtain ⟨rfl, rfl⟩ := List.cons.inj hm
    have hmem := hfits.not_mem hq.not_closesNext
    have hfits' : Fits (none :: s :: ss) q.rest := .of_not_mem (by simpa using hmem) _
    obtain ⟨front, back, s₁, ss', hrest, hcut⟩ := exists_cut_of_cons h hfits' fun hm =>
      ih hm hl hfits' (hts.mono hq.rest_suffix.subset)
    obtain ⟨taken, htaken, hcut'⟩ := hcut.block (p := p) hq hopen hclosed hrest hts
    exact ⟨taken ++ front, back, s₁, ss', by rw [htaken, List.append_assoc], hcut'⟩

/-- A reading can be cut behind its first tags. -/
theorem exists_cut {ss : List (Option Bool)} {p : String} {ts : List Token} {k l : List Tag}
    (h : ReadsTags ss p ts (k ++ l)) (hl : l ≠ []) (hp : k = [] → p = "") (hfits : Fits ss ts)
    (hts : Lexical ts) : ∃ front back s ss', ts = front ++ back ∧
      Cut ss p k l front back s ss' := by
  cases k with
  | nil =>
    obtain rfl := hp rfl
    exact exists_cut_nil h hfits
  | cons tag k => exact h.exists_cut_cons rfl hl hfits hts

/-! ## White space and semicolons in front -/

/-- Nothing is passed where a container ends. -/
theorem eq_nil_of_closesNext {zs us : List Token}
    (hzs : ∀ t ∈ zs, t.kind = .spacing ∨ t.kind = .semicolon) (h : ClosesNext (zs ++ us)) :
    zs = [] := by
  cases zs with
  | nil => rfl
  | cons z zs =>
    have hz := hzs z List.mem_cons_self
    rw [h z rfl] at hz
    rcases hz with hz | hz <;> cases hz

/-- What is passed in front of the next node is read before it. -/
theorem exists_passed {ss : List (Option Bool)} {p : String} {ts : List Token} {l : List Tag}
    (h : ReadsTags ss p ts l) : ∃ zs us, ts = zs ++ us ∧
      (∀ t ∈ zs, t.kind = .spacing ∨ t.kind = .semicolon) ∧ ReadsTags ss (p ++ rawText zs) us l ∧
      ∀ t ∈ us.head?, ¬(t.kind = .spacing ∨ t.kind = .semicolon) := by
  have hnone : ∀ {p : String} {ts : List Token}, ReadsTags ss p ts l →
      (∀ t ∈ ts.head?, ¬(t.kind = .spacing ∨ t.kind = .semicolon)) → ∃ zs us, ts = zs ++ us ∧
        (∀ t ∈ zs, t.kind = .spacing ∨ t.kind = .semicolon) ∧
        ReadsTags ss (p ++ rawText zs) us l ∧
        ∀ t ∈ us.head?, ¬(t.kind = .spacing ∨ t.kind = .semicolon) := fun h hts =>
    ⟨[], _, rfl, List.forall_mem_nil _, by rwa [rawText_nil, String.append_empty], hts⟩
  induction ts generalizing p with
  | nil => exact hnone h nofun
  | cons t r ih =>
    by_cases ht : t.kind = .spacing ∨ t.kind = .semicolon
    · cases h with
      | pass _ h =>
        obtain ⟨zs, us, rfl, hzs, hus, hhead⟩ := ih h
        refine ⟨t :: zs, us, rfl, List.forall_mem_cons.2 ⟨ht, hzs⟩, ?_, hhead⟩
        rwa [rawText_cons, ← String.append_assoc]
      | close hkind | comment hkind =>
        rw [hkind] at ht
        rcases ht with ht | ht <;> cases ht
      | line hq | block hq => exact absurd ht (hq.not_passed t rfl)
    · refine hnone h fun u hu => ?_
      rwa [← Option.some.inj hu]

end ReadsTags

namespace Builder

/-- White space and semicolons between nodes are passed. -/
theorem Stands.passAll {ss : List (Option Bool)} {ls : List Tag} (r : List Token) :
    ∀ {zs : List Token} {b : Builder} {p : String}, b.Stands ss p ls →
    (∀ t ∈ zs, t.kind = .spacing ∨ t.kind = .semicolon) →
    ∃ b' : Builder, b.run (zs ++ r) = b'.run r ∧ b'.Stands ss (p ++ rawText zs) ls
  | [], b, p, h, _ => ⟨b, rfl, by rwa [rawText_nil, String.append_empty]⟩
  | t :: zs, b, p, h, hzs => by
    obtain ⟨ht, hzs⟩ := List.forall_mem_cons.1 hzs
    obtain ⟨b₁, hrun, hb₁⟩ := h.pass ht (zs ++ r)
    obtain ⟨b', hrun', hb'⟩ := Stands.passAll r hb₁ hzs
    refine ⟨b', hrun.trans hrun', ?_⟩
    rwa [rawText_cons, ← String.append_assoc]

end Builder

end PixelUnit.Sheet
