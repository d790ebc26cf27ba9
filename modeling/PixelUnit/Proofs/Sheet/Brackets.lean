import Mathlib.Data.List.Basic
import PixelUnit.Sheet.Reading

/-!
# Brackets in statements

What ends a statement depends on the brackets that are open. `Prelude.passes` follows them through
the classes of some tokens, none of which ends the statement. The tokens of a statement are passed
(`Prelude.passes_tokens`), and tokens that are passed make up a statement with what ends it
(`Prelude.read_stop`, `Prelude.read_before`). Only brackets, braces and semicolons count
(`Prelude.passes_filter`), so that tokens with balanced brackets among them change nothing.
-/

namespace PixelUnit.Sheet

/-- Whether tokens of a class are brackets, braces or semicolons. -/
def Token.Kind.delimits : Token.Kind → Bool
  | .openBrace | .closeBrace | .openSquare | .closeSquare | .openParen | .closeParen
  | .semicolon => true
  | _ => false

/-- Whether a token of a class ends a statement when no bracket is open. -/
def Token.Kind.stops (k : Token.Kind) : Bool :=
  k == .openBrace || k == .semicolon || k == .closeBrace

namespace Prelude

/-- The closing halves that are awaited behind tokens of some classes, if none of these ends the
statement. -/
def passes (awaited : List Token.Kind) : List Token.Kind → Option (List Token.Kind)
  | [] => some awaited
  | k :: ks =>
    if awaited.head? == some k then passes awaited.tail ks
    else if k == .openSquare then passes (.closeSquare :: awaited) ks
    else if k == .openParen then passes (.closeParen :: awaited) ks
    else if awaited.isEmpty && k.stops then none
    else passes awaited ks

/-- Brackets are passed in one part and then in the other. -/
theorem passes_append (awaited : List Token.Kind) (ks ls : List Token.Kind) :
    passes awaited (ks ++ ls) = (passes awaited ks).bind (passes · ls) := by
  fun_induction passes awaited ks <;> simp_all [passes]

/-- The tokens of a statement are passed, and all brackets are closed then exactly if none is noted
as unclosed. -/
theorem passes_tokens (awaited : List Token.Kind) (ts : List Token) :
    ∃ left, passes awaited ((read awaited ts).tokens.map Token.kind) = some left ∧
      ((read awaited ts).unclosed = false ↔ left = []) := by
  fun_induction read awaited ts with
  | case1 => exact ⟨_, rfl, by simp⟩
  | case2 => exact ⟨_, rfl, by simp⟩
  | case3 awaited t r h1 h2 ih =>
    obtain ⟨left, hleft, hclosed⟩ := ih
    exact ⟨left, by simpa [cons, passes, h2] using hleft, hclosed⟩
  | case4 awaited t r h1 h2 h3 ih =>
    obtain ⟨left, hleft, hclosed⟩ := ih
    refine ⟨left, ?_, hclosed⟩
    rw [cons, List.map_cons, passes, if_neg h2, if_pos h3]
    exact hleft
  | case5 awaited t r h1 h2 h3 h4 ih =>
    obtain ⟨left, hleft, hclosed⟩ := ih
    refine ⟨left, ?_, hclosed⟩
    rw [cons, List.map_cons, passes, if_neg h2, if_neg h3, if_pos h4]
    exact hleft
  | case6 awaited t r h1 h2 h3 h4 h5 =>
    rw [Bool.and_eq_true, List.isEmpty_iff] at h5
    exact ⟨awaited, rfl, fun _ => h5.1, fun _ => rfl⟩
  | case7 awaited t r h1 h2 h3 h4 h5 h6 =>
    rw [Bool.and_eq_true, List.isEmpty_iff] at h6
    exact ⟨awaited, rfl, fun _ => h6.1, fun _ => rfl⟩
  | case8 awaited t r h1 h2 h3 h4 h5 h6 ih =>
    obtain ⟨left, hleft, hclosed⟩ := ih
    refine ⟨left, ?_, hclosed⟩
    have hstop : ¬(awaited.isEmpty && t.kind.stops) = true := by
      intro h
      rw [Bool.and_eq_true, Token.Kind.stops, Bool.or_eq_true] at h
      rcases h.2 with h' | h'
      · exact h5 (by rw [h.1, h']; rfl)
      · exact h6 (by rw [h.1, h']; rfl)
    rw [cons, List.map_cons, passes, if_neg h2, if_neg h3, if_neg h4, if_neg hstop]
    exact hleft

/-- Tokens that are passed belong to the statement, which goes on behind them. -/
theorem read_append {ts r : List Token} {awaited left : List Token.Kind}
    (hts : ∀ t ∈ ts, t.kind ≠ .ending) (h : passes awaited (ts.map Token.kind) = some left) :
    read awaited (ts ++ r) = { read left r with tokens := ts ++ (read left r).tokens } := by
  induction ts generalizing awaited with
  | nil =>
    obtain rfl := Option.some.inj h
    rfl
  | cons t ts ih =>
    obtain ⟨ht, hts⟩ := List.forall_mem_cons.1 hts
    rw [List.map_cons, passes] at h
    rw [List.cons_append, read, if_neg (by simpa using ht)]
    split at h
    · next h1 => rw [if_pos h1, ih hts h]; rfl
    next h1 =>
    rw [if_neg h1]
    split at h
    · next h2 => rw [if_pos h2, ih hts h]; rfl
    next h2 =>
    rw [if_neg h2]
    split at h
    · next h3 => rw [if_pos h3, ih hts h]; rfl
    next h3 =>
    rw [if_neg h3]
    split at h
    · cases h
    next h4 =>
    rw [Token.Kind.stops, Bool.and_or_distrib_left, Bool.or_eq_true, not_or] at h4
    rw [if_neg h4.1, if_neg h4.2, ih hts h]
    rfl

/-- Tokens that leave no bracket open, and the brace or semicolon behind them. -/
theorem read_stop {ts r : List Token} {u : Token} (hts : ∀ t ∈ ts, t.kind ≠ .ending)
    (h : passes [] (ts.map Token.kind) = some []) (hu : u.kind = .openBrace ∨ u.kind = .semicolon) :
    read [] (ts ++ u :: r) = ⟨ts, some u, r, false⟩ := by
  have hstop : read [] (u :: r) = ⟨[], some u, r, false⟩ := by
    rcases hu with hu | hu <;> simp [read, hu]
  rw [read_append hts h, hstop, List.append_nil]

/-- Tokens that leave no bracket open before a closing brace, or before nothing. -/
theorem read_before {ts r : List Token} (hts : ∀ t ∈ ts, t.kind ≠ .ending)
    (h : passes [] (ts.map Token.kind) = some [])
    (hr : ∀ t, r.head? = some t → t.kind = .closeBrace) :
    read [] (ts ++ r) = ⟨ts, none, r, false⟩ := by
  have hstop : read [] r = ⟨[], none, r, false⟩ := by
    cases r with
    | nil => rfl
    | cons t r => simp [read, hr t rfl]
  rw [read_append hts h, hstop, List.append_nil]

/-! ## What counts -/

/-- Only closing brackets are awaited. -/
def Awaits (awaited : List Token.Kind) : Prop :=
  ∀ k ∈ awaited, k = .closeParen ∨ k = .closeSquare

theorem awaits_nil : Awaits [] := List.forall_mem_nil _

theorem Awaits.tail {awaited : List Token.Kind} (h : Awaits awaited) : Awaits awaited.tail :=
  fun k hk => h k (List.mem_of_mem_tail hk)

theorem Awaits.cons {awaited : List Token.Kind} {k : Token.Kind} (h : Awaits awaited)
    (hk : k = .closeParen ∨ k = .closeSquare) : Awaits (k :: awaited) :=
  List.forall_mem_cons.2 ⟨hk, h⟩

theorem Awaits.ne_head? {awaited : List Token.Kind} {k : Token.Kind} (h : Awaits awaited)
    (hk : k ≠ .closeParen) (hk' : k ≠ .closeSquare) : ¬(awaited.head? == some k) = true := by
  intro hhead
  rcases h k (List.mem_of_mem_head? (beq_iff_eq.1 hhead)) with rfl | rfl
  · exact hk rfl
  · exact hk' rfl

/-- What is awaited behind tokens that are passed are closing brackets again. -/
theorem Awaits.of_passes {awaited left : List Token.Kind} (h : Awaits awaited)
    {ks : List Token.Kind} (hks : passes awaited ks = some left) : Awaits left := by
  fun_induction passes awaited ks with
  | case1 => exact Option.some.inj hks ▸ h
  | case2 awaited k ks h1 ih => exact ih h.tail hks
  | case3 awaited k ks h1 h2 ih => exact ih (h.cons (Or.inr rfl)) hks
  | case4 awaited k ks h1 h2 h3 ih => exact ih (h.cons (Or.inl rfl)) hks
  | case5 => cases hks
  | case6 awaited k ks h1 h2 h3 h4 ih => exact ih h hks

/-- Tokens of other classes are passed without a difference. -/
theorem passes_cons_of_not_delimits {awaited : List Token.Kind} (h : Awaits awaited)
    {k : Token.Kind} (hk : k.delimits = false) (ks : List Token.Kind) :
    passes awaited (k :: ks) = passes awaited ks := by
  have hhead : ¬(awaited.head? == some k) = true :=
    h.ne_head? (fun h => by simp [h, Token.Kind.delimits] at hk) fun h => by
      simp [h, Token.Kind.delimits] at hk
  have hstop : k.stops = false := by
    cases k <;> first | rfl | cases hk
  rw [passes, if_neg hhead, if_neg (fun h => by simp [beq_iff_eq.1 h, Token.Kind.delimits] at hk),
    if_neg (fun h => by simp [beq_iff_eq.1 h, Token.Kind.delimits] at hk), hstop, Bool.and_false,
    if_neg Bool.false_ne_true]

/-- Only brackets, braces and semicolons count. -/
theorem passes_filter {awaited : List Token.Kind} (h : Awaits awaited) (ks : List Token.Kind) :
    passes awaited (ks.filter Token.Kind.delimits) = passes awaited ks := by
  induction ks generalizing awaited with
  | nil => rfl
  | cons k ks ih =>
    cases hk : k.delimits with
    | false => rw [List.filter_cons_of_neg (by simp [hk]), passes_cons_of_not_delimits h hk, ih h]
    | true =>
      rw [List.filter_cons_of_pos hk, passes, passes]
      rw [ih h.tail, ih (h.cons (Or.inr rfl)), ih (h.cons (Or.inl rfl)), ih h]

/-- Tokens that are passed alike are passed alike among others. -/
theorem passes_congr {us vs : List Token.Kind}
    (h : ∀ awaited, Awaits awaited → passes awaited vs = passes awaited us)
    (pre post : List Token.Kind) :
    passes [] (pre ++ (vs ++ post)) = passes [] (pre ++ (us ++ post)) := by
  rw [passes_append, passes_append]
  cases hpre : passes [] pre with
  | none => rfl
  | some awaited =>
    rw [Option.bind_some, Option.bind_some, passes_append, passes_append,
      h awaited (awaits_nil.of_passes hpre)]

/-- Tokens of some classes are passed and leave open what was open. -/
def Neutral (ks : List Token.Kind) : Prop :=
  ∀ awaited, Awaits awaited → passes awaited ks = some awaited

theorem neutral_nil : Neutral [] := fun _ _ => rfl

/-- What is neutral can be put together. -/
theorem Neutral.append {ks ls : List Token.Kind} (hks : Neutral ks) (hls : Neutral ls) :
    Neutral (ks ++ ls) := by
  intro awaited h
  rw [passes_append, hks awaited h]
  exact hls awaited h

theorem Neutral.cons {k : Token.Kind} {ks : List Token.Kind} (hks : Neutral ks)
    (hk : k.delimits = false) : Neutral (k :: ks) := by
  intro awaited h
  rw [passes_cons_of_not_delimits h hk]
  exact hks awaited h

/-- Such tokens do not count among others. -/
theorem Neutral.passes_insert {ks : List Token.Kind} (hks : Neutral ks) {awaited : List Token.Kind}
    (h : Awaits awaited) (pre post : List Token.Kind) :
    passes awaited (pre ++ (ks ++ post)) = passes awaited (pre ++ post) := by
  rw [passes_append, passes_append _ pre]
  cases hpre : passes awaited pre with
  | none => rfl
  | some left =>
    rw [Option.bind_some, Option.bind_some, passes_append, hks left (h.of_passes hpre),
      Option.bind_some]

/-- Tokens that are no delimiters are neutral. -/
theorem Neutral.of_not_delimits {ks : List Token.Kind} (h : ∀ k ∈ ks, k.delimits = false) :
    Neutral ks := by
  induction ks with
  | nil => exact neutral_nil
  | cons k ks ih =>
    obtain ⟨hk, hks⟩ := List.forall_mem_cons.1 h
    exact (ih hks).cons hk

/-- What is neutral is so in parentheses. -/
theorem Neutral.parens {ks : List Token.Kind} (hks : Neutral ks) :
    Neutral (.openParen :: (ks ++ [.closeParen])) := by
  intro awaited h
  have hopen : passes awaited (.openParen :: (ks ++ [.closeParen])) =
      passes (.closeParen :: awaited) (ks ++ [.closeParen]) := by
    rw [passes, if_neg (h.ne_head? (k := .openParen) (by decide) (by decide))]
    rfl
  rw [hopen, passes_append, hks _ (h.cons (Or.inl rfl))]
  rfl

end Prelude

end PixelUnit.Sheet
