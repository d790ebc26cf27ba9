import Mathlib.Data.List.Basic
import PixelUnit.Value

/-!
# Texts on one line

What is shown inside messages has no line feed in it: numbers are digits and punctuation, and what
is quoted has its line feeds escaped. So a value is shown on one line, whatever it is
(`oneLine_describe`).
-/

namespace PixelUnit

/-- A text without a line feed. -/
def OneLine (s : String) : Prop :=
  '\n' ∉ s.toList

instance (s : String) : Decidable (OneLine s) :=
  inferInstanceAs (Decidable ('\n' ∉ s.toList))

@[simp]
theorem oneLine_append {a b : String} : OneLine (a ++ b) ↔ OneLine a ∧ OneLine b := by
  simp [OneLine, not_or]

@[simp]
theorem oneLine_ofList {cs : List Char} : OneLine (String.ofList cs) ↔ '\n' ∉ cs := by
  simp [OneLine]

/-- Texts on one line are on one line if they are joined by one that is. -/
theorem oneLine_intercalate {separator : String} (hseparator : OneLine separator) :
    ∀ {ss : List String}, (∀ s ∈ ss, OneLine s) → OneLine (separator.intercalate ss)
  | [], _ => by
    rw [String.intercalate_nil]
    decide
  | [s], h => by
    rw [String.intercalate_singleton]
    exact h s List.mem_cons_self
  | s :: t :: ss, h => by
    rw [String.intercalate_cons_cons, oneLine_append, oneLine_append]
    exact ⟨⟨h s List.mem_cons_self, hseparator⟩,
      oneLine_intercalate hseparator fun u hu => h u (List.mem_cons_of_mem s hu)⟩

/-! ## Numbers -/

theorem digitChar_ne_lineFeed : ∀ d < 16, Nat.digitChar d ≠ '\n' := by
  decide

/-- Digits are no line feeds. -/
theorem not_mem_toDigits {b : Nat} (hb : 1 < b) (hb' : b ≤ 16) (n : Nat) :
    '\n' ∉ Nat.toDigits b n := by
  induction n using Nat.strongRecOn with
  | ind n ih =>
    rw [Nat.toDigits_eq_if hb]
    split
    · next hn =>
      have hne := digitChar_ne_lineFeed n (Nat.lt_of_lt_of_le hn hb')
      exact fun h => hne (List.mem_singleton.1 h).symm
    · next hn =>
      rw [List.mem_append, List.mem_singleton, not_or]
      have hlast : n % b < b := Nat.mod_lt n (by omega)
      exact ⟨ih (n / b) (Nat.div_lt_self (by omega) hb),
        (digitChar_ne_lineFeed _ (Nat.lt_of_lt_of_le hlast hb')).symm⟩

@[simp]
theorem oneLine_toString_nat (n : Nat) : OneLine (toString n) := by
  rw [Nat.toString_eq_repr, Nat.repr_eq_ofList_toDigits, oneLine_ofList]
  exact not_mem_toDigits (by decide) (by decide) n

theorem oneLine_toString_int (n : Int) : OneLine (toString n) := by
  cases n with
  | ofNat n => exact oneLine_toString_nat n
  | negSucc n =>
    show OneLine ("-" ++ toString (n + 1))
    exact oneLine_append.2 ⟨by decide, oneLine_toString_nat _⟩

namespace Number

theorem not_mem_shortestFrom (b : Binary) (e : Int) :
    ∀ fuel n : Nat, '\n' ∉ (b.shortestFrom e fuel n).digits
  | 0, _ => by
    show '\n' ∉ ['0']
    decide
  | fuel + 1, n => by
    rw [Binary.shortestFrom]
    split
    · intro h
      have hmem := (List.dropWhile_sublist _).subset (List.mem_reverse.1 h)
      exact not_mem_toDigits (by decide) (by decide) _ (List.mem_reverse.1 hmem)
    · exact not_mem_shortestFrom b e fuel (n + 1)

theorem not_mem_write (l : Layout) {d : Decimal} (h : '\n' ∉ d.digits) : '\n' ∉ l.write d := by
  have htake (n : Nat) : '\n' ∉ d.digits.take n := fun hn => h (List.mem_of_mem_take hn)
  have hdrop (n : Nat) : '\n' ∉ d.digits.drop n := fun hn => h (List.mem_of_mem_drop hn)
  have hexponent (n : Nat) : '\n' ∉ Nat.toDigits 10 n := not_mem_toDigits (by decide) (by decide) n
  unfold Layout.write
  dsimp only
  split
  · split
    · simp [h]
    · split
      · simp [h]
      · simp [htake, hdrop]
  · have hpoint : '\n' ∉ (if ((d.digits.length : Int) == 1) = true then [] else
        '.' :: d.digits.drop 1) := by
      split
      · exact List.not_mem_nil
      · exact List.not_mem_cons_of_ne_of_not_mem (by decide) (hdrop 1)
    have hsign : '\n' ≠ if d.exponent - 1 < 0 then '-' else '+' := by
      split <;> decide
    simp only [List.mem_append, List.mem_cons, List.mem_replicate, not_or]
    exact ⟨⟨htake 1, hpoint⟩, by decide, hsign, by simp, hexponent _⟩

/-- A number is shown on one line. -/
theorem oneLine_showFloat (x : Float) : OneLine (showFloat x) := by
  have hsign : OneLine (if (x.toBits.toNat / powerOfTwo 63 == 1) = true then "-" else "") := by
    split <;> decide
  unfold showFloat
  dsimp only
  split
  · decide
  · split
    · exact oneLine_append.2 ⟨hsign, by decide⟩
    · refine oneLine_append.2 ⟨hsign, oneLine_ofList.2 ?_⟩
      split
      · decide
      · exact not_mem_write _ (not_mem_shortestFrom _ _ _ _)

end Number

/-! ## Quoted texts -/

namespace Text

theorem not_mem_escapeCode (n : Nat) : '\n' ∉ escapeCode n := by
  have hdigits : '\n' ∉ Nat.toDigits 16 n := not_mem_toDigits (by decide) (by decide) n
  unfold escapeCode
  split
  · simp [hexadecimal, hdigits]
  · split <;> simp [hexadecimal, hdigits]

/-- What is escaped is shown on one line. -/
theorem not_mem_escapeWith {quote : Char} (hquote : quote ≠ '\n') (isPlain : Char → Bool)
    (c : Char) : '\n' ∉ escapeWith quote isPlain c := by
  unfold escapeWith
  split
  · next h =>
    have hc : '\n' ≠ c := by
      rintro rfl
      rw [Bool.or_eq_true, beq_iff_eq, beq_iff_eq] at h
      exact h.elim (fun h => hquote h.symm) (by decide)
    simp [hc]
  · split
    · decide
    · next hne =>
      have hc : '\n' ≠ c := fun h => hne (beq_iff_eq.2 h.symm)
      split
      · decide
      · split
        · decide
        · split
          · simp [hc]
          · exact not_mem_escapeCode _

theorem quoteFor_ne (cs : List Char) : quoteFor cs ≠ '\n' := by
  unfold quoteFor
  split <;> decide

/-- What stands between quotes stands on one line, and so do the quotes. -/
theorem not_mem_escaped (cs : List Char) (isPlain : Char → Bool) :
    '\n' ∉ quoteFor cs :: cs.flatMap (escapeWith (quoteFor cs) isPlain) ++ [quoteFor cs] := by
  have hquote := quoteFor_ne cs
  simp only [List.mem_append, List.mem_cons, List.mem_flatMap, List.not_mem_nil, or_false, not_or,
    not_exists, not_and]
  exact ⟨⟨hquote.symm, fun c _ => not_mem_escapeWith hquote isPlain c⟩, hquote.symm⟩

@[simp]
theorem oneLine_quoted (s : String) : OneLine (quoted s) :=
  oneLine_ofList.2 (not_mem_escaped s.toList isPrintable)

theorem oneLine_quotedBytes (bytes : List UInt8) : OneLine (quotedBytes bytes) :=
  oneLine_ofList.2 (List.not_mem_cons_of_ne_of_not_mem (by decide) (not_mem_escaped _ _))

end Text

/-! ## Values -/

/-- An expression is shown on one line. -/
theorem Regex.oneLine_describe (r : Regex) : OneLine r.describe := by
  have htext : OneLine (String.ofList ((Text.quotedChars r.source.toList).take shownLength)) :=
    oneLine_ofList.2 fun h =>
      Text.not_mem_escaped r.source.toList Text.isPrintable (List.mem_of_mem_take h)
  have hnames : ∀ s ∈ r.flags.names, OneLine s := by
    obtain ⟨ignoreCase, multiLine, dotAll, verbose, ascii, template⟩ := r.flags
    revert ignoreCase multiLine dotAll verbose ascii template
    decide
  have hflags : OneLine (if r.flags.names.isEmpty then "" else
      ", " ++ "|".intercalate r.flags.names) := by
    split
    · decide
    · exact oneLine_append.2 ⟨by decide, oneLine_intercalate (by decide) hnames⟩
  unfold describe
  simp only [oneLine_append]
  exact ⟨⟨⟨by decide, htext⟩, hflags⟩, by decide⟩

namespace Value

theorem oneLine_enclosed {opening closing : String} {items : List String}
    (hopening : OneLine opening) (hitems : ∀ s ∈ items, OneLine s) (hclosing : OneLine closing) :
    OneLine (opening ++ ", ".intercalate items ++ closing) :=
  oneLine_append.2 ⟨oneLine_append.2 ⟨hopening, oneLine_intercalate (by decide) hitems⟩, hclosing⟩

mutual

/-- A value is shown on one line. -/
theorem oneLine_describe : ∀ v : Value, OneLine v.describe
  | null => by decide
  | bool true => by decide
  | bool false => by decide
  | int n => by
    rw [describe]
    exact oneLine_toString_int n
  | float x => by
    rw [describe]
    exact Number.oneLine_showFloat x
  | text s => by
    rw [describe]
    exact Text.oneLine_quoted s
  | bytes bs => by
    rw [describe]
    exact Text.oneLine_quotedBytes bs
  | list items => by
    rw [describe]
    exact oneLine_enclosed (by decide) (oneLine_describeAll items) (by decide)
  | tuple [item] => by
    rw [describe, oneLine_append, oneLine_append]
    exact ⟨⟨by decide, oneLine_describe item⟩, by decide⟩
  | tuple [] => by decide
  | tuple (a :: b :: items) => by
    rw [describe]
    · exact oneLine_enclosed (by decide) (oneLine_describeAll (a :: b :: items)) (by decide)
    · nofun
  | mapping entries => by
    rw [describe]
    exact oneLine_enclosed (by decide) (oneLine_describeEntries entries) (by decide)
  | regex r => by
    rw [describe]
    exact r.oneLine_describe
  | function _ => by
    rw [describe]
    decide

theorem oneLine_describeAll : ∀ vs : List Value, ∀ s ∈ describeAll vs, OneLine s
  | [] => nofun
  | v :: vs => List.forall_mem_cons.2 ⟨oneLine_describe v, oneLine_describeAll vs⟩

theorem oneLine_describeEntries :
    ∀ es : List (String × Value), ∀ s ∈ describeEntries es, OneLine s
  | [] => nofun
  | (k, v) :: es => List.forall_mem_cons.2
      ⟨oneLine_append.2 ⟨oneLine_append.2 ⟨Text.oneLine_quoted k, by decide⟩, oneLine_describe v⟩,
        oneLine_describeEntries es⟩

end

end Value

end PixelUnit
