import Mathlib.Data.List.Forall2
import Mathlib.Data.List.Induction
import PixelUnit.Proofs.Sheet.Lossless

/-!
# Where tokens and faults stand

Scanning counts lines and columns character by character. What comes out is the usual count
(`Position.start_advance`): behind a text one is on the line after as many line feeds as the text
has, and in the column after as many characters as stand behind the last of them. No other
character starts a line.

So every token stands behind the texts of the tokens before it, whatever these hold. The faults that
are noted are what is wrong with some of the tokens and stand where these do, and a comment without
an end is reported where it starts (`scanSource_positions`).
-/

namespace PixelUnit.Sheet

/-! ## Lines and columns -/

/-- The place behind a text: line feeds end its lines, and the characters of the last line are
counted. -/
def Position.behind (text : String) : Position where
  line := 1 + text.toList.count '\n'
  column := 1 + (text.toList.reverse.takeWhile (· ≠ '\n')).length

/-- The place behind a text can be counted character by character. -/
theorem Position.start_advance (cs : List Char) :
    Position.start.advance cs = .behind (String.ofList cs) := by
  unfold Position.behind
  rw [String.toList_ofList]
  induction cs using List.reverseRecOn with
  | nil => rfl
  | append_singleton cs c ih =>
    rw [advance_append, ih, advance_cons, advance_nil, step, List.reverse_concat]
    by_cases hc : c = '\n'
    · subst hc
      simp [List.count_append, Nat.add_assoc]
    · simp [List.count_append, hc, Nat.add_assoc]

/-! ## What is wrong with tokens -/

/-- What can be wrong with a token of some class. -/
def Token.Kind.Breaks : Token.Kind → Fault.Cause → Prop
  | .badString, e => e = .unclosedString ∨ e = .brokenString
  | .url, e => e = .unclosedUrl
  | _, _ => False

/-- A fault is what is wrong with a token, and is reported where the token stands. -/
def Fault.IsOf (f : Fault) (t : Token) : Prop :=
  t.kind.Breaks f.cause ∧ f.pos = t.pos

/-- A fault that is among those of some tokens is that of one of them. -/
theorem exists_isOf {fs : List Fault} {ts : List Token}
    (h : List.SublistForall₂ Fault.IsOf fs ts) {f : Fault} (hf : f ∈ fs) : ∃ t ∈ ts, f.IsOf t := by
  induction h with
  | nil => cases hf
  | cons hof _ ih =>
    rcases List.mem_cons.1 hf with rfl | hf
    · exact ⟨_, List.mem_cons_self, hof⟩
    · obtain ⟨t, ht, hof⟩ := ih hf
      exact ⟨t, List.mem_cons_of_mem _ ht, hof⟩
  | cons_right _ ih =>
    obtain ⟨t, ht, hof⟩ := ih hf
    exact ⟨t, List.mem_cons_of_mem _ ht, hof⟩

/-- What is wrong with a lexeme is what can be wrong with its class. -/
theorem Lexeme.breaks_of_fault {c : Char} {cs : List Char} {l : Lexeme}
    (h : Lexeme.read c cs = .ok l) {e : Fault.Cause} (he : l.fault = some e) :
    l.kind.Breaks e := by
  cases Lexeme.form_of_read h with
  | comment | spacing | string | punctuation | atKeyword | word => cases he
  | badString hc hs =>
    obtain rfl := Option.some.inj he
    exact splitString_fault (by rw [hs])
  | url hc hs hname hu =>
    rcases splitUrl_fault hu with rfl | rfl
    · cases he
    · exact (Option.some.inj he).symm

/-! ## Scans -/

namespace Scanner

/-- A token stands behind the texts of the tokens that are read before it. -/
theorem pos_of_scan (s : Scanner) {t : Token} {pre post : List Token}
    (h : s.scan.tokens = pre ++ t :: post) : t.pos = s.pos.advance (rawText pre).toList := by
  induction s using scan.induct generalizing pre with
  | case1 s hrest =>
    rw [scan_nil hrest] at h
    simp at h
  | case2 s hrest e s' hs =>
    rw [scan_error hrest hs] at h
    simp at h
  | case3 s hrest u s' hs hlt ih =>
    rw [scan_ok hrest hs] at h
    obtain ⟨c, r, l, -, hread, rfl, rfl⟩ := consume_ok hrest hs
    cases pre with
    | nil =>
      obtain ⟨rfl, -⟩ := List.cons.inj h
      rfl
    | cons v pre =>
      obtain ⟨rfl, htokens⟩ := List.cons.inj h
      rw [ih htokens, rawText_cons, String.toList_append, String.toList_ofList,
        Position.advance_append]
      rfl

/-- A comment without an end is not noted. -/
theorem faults_of_consume_error {s s' : Scanner} {e : Fault} (hs : s.consume = (.error e, s')) :
    s'.faults = s.faults := by
  unfold consume at hs
  split at hs
  · cases hs
  · split at hs <;> cases hs
    rfl

/-- What scanning notes is what is wrong with some of its tokens, one after the other. -/
theorem faults_scan (s : Scanner) : ∃ new, s.scan.final.faults = s.faults ++ new ∧
    List.SublistForall₂ Fault.IsOf new s.scan.tokens := by
  induction s using scan.induct with
  | case1 s hrest =>
    rw [scan_nil hrest]
    exact ⟨[], (List.append_nil _).symm, .nil⟩
  | case2 s hrest e s' hs =>
    rw [scan_error hrest hs]
    exact ⟨[], (faults_of_consume_error hs).trans (List.append_nil _).symm, .nil⟩
  | case3 s hrest t s' hs hlt ih =>
    rw [scan_ok hrest hs]
    obtain ⟨c, r, l, -, hread, rfl, rfl⟩ := consume_ok hrest hs
    obtain ⟨new, hfaults, hof⟩ := ih
    cases hfault : l.fault with
    | none =>
      refine ⟨new, ?_, .cons_right hof⟩
      rw [hfaults, past, hfault]
      simp
    | some e =>
      refine ⟨⟨e, s.pos⟩ :: new, ?_, .cons ⟨Lexeme.breaks_of_fault hread hfault, rfl⟩ hof⟩
      rw [hfaults, past, hfault]
      simp

end Scanner

/-! ## Sources -/

theorem pos_of_scanSource {source : String} {t : Token} {pre post : List Token}
    (h : (scanSource source).tokens = pre ++ t :: post) : t.pos = .behind (rawText pre) := by
  rw [Scanner.pos_of_scan (.ofSource source.toList) h, ← String.ofList_toList (s := rawText pre),
    ← Position.start_advance, String.toList_ofList]
  rfl

theorem faults_scanSource (source : String) :
    List.SublistForall₂ Fault.IsOf (scanSource source).final.faults
      (scanSource source).tokens := by
  obtain ⟨new, hfaults, hof⟩ := Scanner.faults_scan (.ofSource source.toList)
  rw [scanSource, hfaults]
  exact hof

theorem exists_token_of_fault {source : String} {f : Fault}
    (hf : f ∈ (scanSource source).final.faults) : ∃ t ∈ (scanSource source).tokens, f.IsOf t :=
  exists_isOf (faults_scanSource source) hf

/-- The fault that ends a scan is a comment without an end, behind all tokens. -/
theorem pos_of_failure {source : String} {f : Fault} (h : (scanSource source).failure = some f) :
    f = ⟨.unclosedComment, .behind (rawText (scanSource source).tokens)⟩ := by
  have hcovers : Scanner.Covers .start source.toList (scanSource source) :=
    Scanner.covers_scan (.ofSource source.toList)
  cases hcovers with
  | all failure => rw [failure] at h; cases h
  | upTo body failure =>
    rw [failure, Position.start_advance, String.ofList_toList] at h
    exact (Option.some.inj h).symm

/-- Every token of a source stands behind the texts of the tokens before it. What is noted are
faults of tokens, in the order of these, and stands where they do; a fault that ends the scanning
stands behind all tokens. -/
theorem scanSource_positions (source : String) :
    (∀ pre t post, (scanSource source).tokens = pre ++ t :: post → t.pos = .behind (rawText pre)) ∧
      List.SublistForall₂ Fault.IsOf (scanSource source).final.faults
        (scanSource source).tokens ∧
      ∀ f, (scanSource source).failure = some f →
        f.pos = .behind (rawText (scanSource source).tokens) :=
  ⟨fun _ _ _ h => pos_of_scanSource h, faults_scanSource source,
    fun f h => by rw [pos_of_failure h]⟩

example : ((scanSource "a\\\n\r\x0cb \"c\n/*\n").tokens.map Token.pos) =
    [⟨1, 1⟩, ⟨2, 1⟩, ⟨2, 3⟩, ⟨2, 4⟩, ⟨2, 5⟩, ⟨2, 7⟩] := by
  decide +kernel

end PixelUnit.Sheet
