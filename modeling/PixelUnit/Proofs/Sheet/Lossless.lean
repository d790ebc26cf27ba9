import PixelUnit.Proofs.Sheet.Statements

/-!
# Scanning loses nothing

A scan reads tokens up to the end of its text, or up to a comment without an end: the texts of the
tokens, joined, are the text or what stands in front of that comment, and no token is empty
(`Scanner.Covers`, `Scanner.covers_scan`). A comment without an end is the only failure there is
(`Lexeme.read_eq_error_iff`), and it is reported at the place where the comment starts
(`scanSource_covers`).
-/

namespace PixelUnit.Sheet

/-! ## Comments without an end -/

/-- The mark that closes a comment. -/
def commentEnd : List Char := ['*', '/']

/-- A comment has no end if there is no closing mark. -/
theorem splitComment_eq_none_iff {cs : List Char} :
    splitComment cs = none ↔ ¬commentEnd <:+: cs := by
  unfold commentEnd
  fun_induction splitComment cs with
  | case1 => simp
  | case2 r =>
    have hprefix : ['*', '/'] <+: '*' :: '/' :: r := List.prefix_append _ _
    exact iff_of_false (Option.some_ne_none _) fun h => h hprefix.isInfix
  | case3 c r hne ih =>
    rw [Option.map_eq_none_iff, ih, List.infix_cons_iff, not_or]
    refine (and_iff_right fun hprefix => ?_).symm
    -- the mark is not in front, or the case before would have read it
    obtain ⟨q, hq⟩ := hprefix
    obtain ⟨rfl, rfl⟩ := List.cons.inj hq
    exact hne q rfl rfl

/-- Nothing but a comment without an end cannot be read. -/
theorem Lexeme.read_eq_error_iff {c : Char} {cs : List Char} {e : Fault.Cause} :
    Lexeme.read c cs = .error e ↔
      e = .unclosedComment ∧ c = '/' ∧ ∃ body, cs = '*' :: body ∧ ¬commentEnd <:+: body := by
  constructor
  · intro h
    unfold Lexeme.read at h
    split at h
    · next hcomment =>
      simp only [startsComment, Bool.and_eq_true, beq_iff_eq, Option.some.injEq] at hcomment
      obtain ⟨rfl, hhead⟩ := hcomment
      obtain ⟨body, rfl⟩ := List.head?_eq_some_iff.1 hhead
      split at h
      · cases h
      · next hsplit =>
        cases h
        exact ⟨rfl, rfl, body, rfl, splitComment_eq_none_iff.1 hsplit⟩
    · -- every other branch reads a lexeme
      split at h
      · cases h
      · split at h
        · split at h <;> cases h
        · split at h
          · cases h
          · split at h <;> cases h
  · rintro ⟨rfl, rfl, body, rfl, hbody⟩
    have hstart : startsComment (some '/') ('*' :: body).head? = true := rfl
    unfold Lexeme.read
    rw [if_pos hstart, List.drop_one, List.tail_cons, splitComment_eq_none_iff.2 hbody]

/-! ## What a scan covers -/

namespace Scanner

/-- The tokens of a scan make up the text that stood at a place, or the scan failed at a comment
without an end, and they make up what is in front of it. -/
inductive Covers (pos : Position) (text : List Char) (scan : Scan) : Prop
  | all (failure : scan.failure = none) (tokens : (rawText scan.tokens).toList = text)
  | upTo (body : List Char)
      (failure : scan.failure =
        some ⟨.unclosedComment, pos.advance (rawText scan.tokens).toList⟩)
      (text_eq : text = (rawText scan.tokens).toList ++ '/' :: '*' :: body)
      (noEnd : ¬commentEnd <:+: body)

/-- Only a comment without an end cannot be read. -/
theorem consume_error {s s' : Scanner} {e : Fault} (h : s.rest ≠ [])
    (hs : s.consume = (.error e, s')) :
    ∃ body, e = ⟨.unclosedComment, s.pos⟩ ∧ s.rest = '/' :: '*' :: body ∧
      ¬commentEnd <:+: body := by
  unfold consume at hs
  split at hs
  · contradiction
  · next c r hrest =>
    split at hs
    · next cause hread =>
      obtain ⟨rfl, rfl, body, rfl, hbody⟩ := Lexeme.read_eq_error_iff.1 hread
      cases hs
      exact ⟨body, rfl, hrest, hbody⟩
    · cases hs

/-- A token in front of a scan is in front of what the scan covers. -/
theorem Covers.cons {pos : Position} {raw rest : List Char} {scan : Scan}
    (h : Covers (pos.advance raw) rest scan) {t : Token} (ht : t.raw = String.ofList raw)
    (final : Scanner) :
    Covers pos (raw ++ rest) ⟨t :: scan.tokens, scan.failure, final⟩ := by
  have htext : (rawText (t :: scan.tokens)).toList = raw ++ (rawText scan.tokens).toList := by
    rw [rawText_cons, String.toList_append, ht, String.toList_ofList]
  cases h with
  | all failure tokens => exact .all failure (by rw [htext, tokens])
  | upTo body failure text_eq noEnd =>
    refine .upTo body ?_ ?_ noEnd
    · rw [htext, Position.advance_append]
      exact failure
    · rw [htext, text_eq, List.append_assoc]

/-- A scan covers the text that stood at its place. -/
theorem covers_scan (s : Scanner) : Covers s.pos s.rest s.scan := by
  induction s using scan.induct with
  | case1 s hrest =>
    rw [scan_nil hrest, hrest]
    exact .all rfl rfl
  | case2 s hrest e s' hs =>
    obtain ⟨body, rfl, htext, hbody⟩ := consume_error hrest hs
    rw [scan_error hrest hs]
    exact .upTo body rfl htext hbody
  | case3 s hrest t s' hs hlt ih =>
    rw [scan_ok hrest hs]
    obtain ⟨c, r, l, hcons, hread, rfl, rfl⟩ := consume_ok hrest hs
    rw [hcons, ← Lexeme.raw_append_rest hread]
    exact ih.cons rfl _

/-- No token of a scan is empty. -/
theorem raw_ne_empty_of_scan (s : Scanner) : ∀ t ∈ s.scan.tokens, t.raw ≠ "" := by
  induction s using scan.induct with
  | case1 s hrest =>
    rw [scan_nil hrest]
    exact List.forall_mem_nil _
  | case2 s hrest e s' hs =>
    rw [scan_error hrest hs]
    exact List.forall_mem_nil _
  | case3 s hrest t s' hs hlt ih =>
    rw [scan_ok hrest hs]
    obtain ⟨c, r, l, -, hread, rfl, rfl⟩ := consume_ok hrest hs
    refine List.forall_mem_cons.2 ⟨fun hnil => Lexeme.raw_ne_nil hread ?_, ih⟩
    simpa using hnil

end Scanner

/-- Scanning a source gives tokens with texts, and these make up the source, unless there is a
comment without an end: then the scan fails where it starts, and the tokens make up what is in front
of it. -/
theorem scanSource_covers (source : String) :
    (∀ t ∈ (scanSource source).tokens, t.raw ≠ "") ∧
      ((scanSource source).failure = none ∧ rawText (scanSource source).tokens = source ∨
        ∃ body, (scanSource source).failure = some ⟨.unclosedComment,
            Position.start.advance (rawText (scanSource source).tokens).toList⟩ ∧
          source = rawText (scanSource source).tokens ++ "/*" ++ body ∧
          ¬commentEnd <:+: body.toList) := by
  refine ⟨Scanner.raw_ne_empty_of_scan _, ?_⟩
  have hcovers : Scanner.Covers .start source.toList (scanSource source) :=
    Scanner.covers_scan (.ofSource source.toList)
  cases hcovers with
  | all failure tokens => exact Or.inl ⟨failure, String.toList_inj.1 tokens⟩
  | upTo body failure text_eq noEnd =>
    refine Or.inr ⟨String.ofList body, failure, ?_, by rwa [String.toList_ofList]⟩
    rw [← String.toList_inj, text_eq]
    simp

example : (scanSource "a/*b").failure = some ⟨.unclosedComment, ⟨1, 2⟩⟩ := by decide +kernel

end PixelUnit.Sheet
