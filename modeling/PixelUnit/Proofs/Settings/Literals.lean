import Mathlib.Data.List.Basic
import PixelUnit.Proofs.Settings.Layers
import PixelUnit.Proofs.Text.Runs

/-!
# Regular expressions between slashes

A literal is a text of the form `/body/letters`. It is cut at its last slash, since no letter is
one, so its body and its letters are determined (`IsLiteral.unique`). What is read as a literal is a
literal or a literal with one line feed behind it (`literalParts?_eq_some_iff`). The letters of a
literal stand for flags, whatever their order and number (`literalFlags_of_known`).
-/

namespace PixelUnit.Settings

/-- A text has the form `/body/letters`: its body is not empty, and its letters are lower-case. -/
structure IsLiteral (cs body letters : List Char) : Prop where
  eq : cs = '/' :: (body ++ '/' :: letters)
  body_ne_nil : body ≠ []
  isLower : ∀ c ∈ letters, c.isLower = true

/-- A text is a literal with a line feed behind it. -/
def IsFedLiteral (cs body letters : List Char) : Prop :=
  ∃ front, cs = front ++ ['\n'] ∧ IsLiteral front body letters

/-! ## Bodies and letters -/

section Parts

variable {cs body letters : List Char}

/-- From its end, a literal is a run of letters, a slash and the body. -/
theorem IsLiteral.cut (h : IsLiteral cs body letters) :
    ∃ r, cs = '/' :: r ∧ r.reverse.takeWhile Char.isLower = letters.reverse ∧
      r.reverse.dropWhile Char.isLower = '/' :: body.reverse := by
  have hletters : ∀ c ∈ letters.reverse, c.isLower = true := fun c hc =>
    h.isLower c (List.mem_reverse.1 hc)
  have hslash : ∀ c ∈ ('/' :: body.reverse).head?, c.isLower = false := by
    rintro c ⟨⟩
    decide
  refine ⟨_, h.eq, ?_⟩
  rw [List.reverse_append, List.reverse_cons, List.append_assoc, List.singleton_append]
  exact ⟨Text.takeWhile_run hletters hslash, Text.dropWhile_run hletters hslash⟩

/-- A literal has one body and one word of letters. -/
theorem IsLiteral.unique {body' letters' : List Char} (h : IsLiteral cs body letters)
    (h' : IsLiteral cs body' letters') : body = body' ∧ letters = letters' := by
  obtain ⟨r, rfl, htake, hdrop⟩ := h.cut
  obtain ⟨r', hr, htake', hdrop'⟩ := h'.cut
  obtain rfl := (List.cons.inj hr).2
  exact ⟨List.reverse_injective (List.cons.inj (hdrop.symm.trans hdrop')).2,
    List.reverse_injective (htake.symm.trans htake')⟩

/-- A literal does not end in a line feed. -/
theorem IsLiteral.ne_concat (h : IsLiteral cs body letters) (front : List Char) :
    cs ≠ front ++ ['\n'] := by
  intro hfront
  have hlast : '\n' ∈ ('/' :: letters).getLast? := by
    have hcs := congrArg List.getLast? (hfront.symm.trans h.eq)
    rw [List.getLast?_concat, ← List.cons_append, List.getLast?_append_of_ne_nil _ (by simp)] at hcs
    exact hcs.symm
  rcases List.mem_cons.1 (List.mem_of_mem_getLast? hlast) with hslash | hletter
  · exact absurd hslash (by decide)
  · exact absurd (h.isLower _ hletter) (by decide)

/-- The text behind the first slash of what may be a literal, read from its end. -/
def partsFromEnd (back : List Char) : Option (List Char × List Char) :=
  match back.dropWhile Char.isLower with
  | '/' :: body =>
    if body.isEmpty then none else some (body.reverse, (back.takeWhile Char.isLower).reverse)
  | _ => none

/-- A text from its end, without the line feed there. -/
def withoutFeed : List Char → List Char
  | '\n' :: back => back
  | back => back

theorem literalParts?_slash (r : List Char) :
    literalParts? ('/' :: r) = partsFromEnd (withoutFeed r.reverse) := rfl

/-- A literal, read from its end: its letters, a slash, its body and the slash in front. -/
theorem partsFromEnd_eq_some_iff {back : List Char} :
    partsFromEnd back = some (body, letters) ↔ IsLiteral ('/' :: back.reverse) body letters := by
  constructor
  · intro h
    unfold partsFromEnd at h
    split at h
    · next front hdrop =>
      split at h
      · cases h
      · next hfront =>
        cases h
        refine ⟨?_, by simpa using hfront, fun c hc => ?_⟩
        · conv_lhs => rw [← List.takeWhile_append_dropWhile (p := Char.isLower) (l := back), hdrop]
          simp
        · exact List.mem_takeWhile_imp (List.mem_reverse.1 hc)
    · cases h
  · intro h
    obtain ⟨r, hr, htake, hdrop⟩ := h.cut
    rw [← (List.cons.inj hr).2, List.reverse_reverse] at htake hdrop
    rw [partsFromEnd, htake, hdrop]
    refine (if_neg (by simpa using h.body_ne_nil)).trans ?_
    rw [List.reverse_reverse, List.reverse_reverse]

/-- What is read as a literal is a literal or one with a line feed behind it. -/
theorem literalParts?_eq_some_iff :
    literalParts? cs = some (body, letters) ↔
      IsLiteral cs body letters ∨ IsFedLiteral cs body letters := by
  constructor
  · intro h
    unfold literalParts? at h
    split at h
    · next r =>
      change partsFromEnd (withoutFeed r.reverse) = _ at h
      unfold withoutFeed at h
      split at h
      · next back hback =>
        refine Or.inr ⟨_, ?_, partsFromEnd_eq_some_iff.1 h⟩
        rw [List.cons_append, ← List.reverse_cons, ← hback, List.reverse_reverse]
      · exact Or.inl (List.reverse_reverse r ▸ partsFromEnd_eq_some_iff.1 h)
    · cases h
  · rintro (h | ⟨front, rfl, h⟩)
    · obtain ⟨r, rfl, -⟩ := h.cut
      rw [literalParts?_slash]
      unfold withoutFeed
      split
      · next back hback =>
        refine absurd ?_ (h.ne_concat ('/' :: back.reverse))
        rw [List.cons_append, ← List.reverse_cons, ← hback, List.reverse_reverse]
      · exact partsFromEnd_eq_some_iff.2 ((List.reverse_reverse r).symm ▸ h)
    · obtain ⟨r, rfl, -⟩ := h.cut
      rw [List.cons_append, literalParts?_slash, List.reverse_append]
      exact partsFromEnd_eq_some_iff.2 ((List.reverse_reverse r).symm ▸ h)

end Parts

/-! ## Flags -/

/-- The letters that a literal may have. -/
def knownLetters : List Char := ['i', 'm', 's', 'x', 'g', 'u', 'y']

/-- The flags that occur among some letters. -/
def flagsOf (letters : List Char) : Regex.Flags where
  ignoreCase := letters.contains 'i'
  multiLine := letters.contains 'm'
  dotAll := letters.contains 's'
  verbose := letters.contains 'x'

/-- Known letters stand for the flags among them, in any order. -/
theorem literalFlags_of_known (k : Key) (source : String) {letters : List Char}
    (h : ∀ c ∈ letters, c ∈ knownLetters) (flags : Regex.Flags) :
    literalFlags k source flags letters = .ok (flags.union (flagsOf letters)) := by
  induction letters generalizing flags with
  | nil => simp [literalFlags, Regex.Flags.union, flagsOf]
  | cons c cs ih =>
    obtain ⟨hc, hcs⟩ := List.forall_mem_cons.1 h
    simp only [knownLetters, List.mem_cons, List.not_mem_nil, or_false] at hc
    rcases hc with rfl | rfl | rfl | rfl | rfl | rfl | rfl <;>
      simp [literalFlags, Regex.Flags.ofLetter?, idleFlags, ih hcs, Regex.Flags.union, flagsOf]

/-- A letter that means a flag is known. -/
theorem mem_knownLetters {c : Char} {f : Regex.Flags} (h : Regex.Flags.ofLetter? c = some f) :
    c ∈ knownLetters := by
  unfold Regex.Flags.ofLetter? at h
  split at h
  · simp [knownLetters]
  · simp [knownLetters]
  · simp [knownLetters]
  · simp [knownLetters]
  · cases h

/-- A letter that is known and means no flag is idle. -/
theorem contains_idleFlags {c : Char} (h : c ∈ knownLetters)
    (hnone : Regex.Flags.ofLetter? c = none) : idleFlags.contains c = true := by
  simp only [knownLetters, List.mem_cons, List.not_mem_nil, or_false] at h
  rcases h with rfl | rfl | rfl | rfl | hidle
  · cases hnone
  · cases hnone
  · cases hnone
  · cases hnone
  · simpa [idleFlags] using hidle

/-- A letter that is not known is a fault. -/
theorem literalFlags_of_unknown (k : Key) (source : String) {letters : List Char}
    (h : ∃ c ∈ letters, c ∉ knownLetters) (flags : Regex.Flags) :
    ∃ c ∈ letters, c ∉ knownLetters ∧
      literalFlags k source flags letters = .error (.badFlag k c source) := by
  induction letters generalizing flags with
  | nil => simp at h
  | cons c cs ih =>
    by_cases hc : c ∈ knownLetters
    · have htail : ∃ d ∈ cs, d ∉ knownLetters := by
        obtain ⟨d, hd, hunknown⟩ := h
        rcases List.mem_cons.1 hd with rfl | hd
        · exact absurd hc hunknown
        · exact ⟨d, hd, hunknown⟩
      have hrest (flags : Regex.Flags) := ih htail flags
      unfold literalFlags
      split
      · next f hf =>
        obtain ⟨d, hd, hunknown, herror⟩ := hrest (flags.union f)
        exact ⟨d, List.mem_cons_of_mem _ hd, hunknown, herror⟩
      · next hnone =>
        obtain ⟨d, hd, hunknown, herror⟩ := hrest flags
        rw [if_pos (contains_idleFlags hc hnone)]
        exact ⟨d, List.mem_cons_of_mem _ hd, hunknown, herror⟩
    · refine ⟨c, List.mem_cons_self, hc, ?_⟩
      unfold literalFlags
      split
      · next f hf => exact absurd (mem_knownLetters hf) hc
      · rw [if_neg fun hidle => hc ?_]
        exact List.mem_append_right ['i', 'm', 's', 'x'] (List.contains_iff_mem.1 hidle)

/-! ## Reading -/

section Reading

variable {k : Key} {s : String} {body letters : List Char}

/-- A text that is read as a literal is a body with more around it. -/
theorem ofList_body_ne (h : literalParts? s.toList = some (body, letters)) :
    String.ofList body ≠ s := by
  have hlength {cs : List Char} (h : IsLiteral cs body letters) : body.length < cs.length := by
    rw [h.eq, List.length_cons, List.length_append]
    omega
  rintro rfl
  rw [String.toList_ofList, literalParts?_eq_some_iff] at h
  rcases h with h | ⟨front, hfront, h⟩
  · exact absurd (hlength h) (Nat.lt_irrefl _)
  · have hcs := congrArg List.length hfront
    have hbody := hlength h
    rw [List.length_append] at hcs
    omega

theorem not_isLiteral_of_none (h : literalParts? s.toList = none) (body letters : List Char) :
    ¬IsLiteral s.toList body letters := fun hliteral =>
  absurd (h.symm.trans (literalParts?_eq_some_iff.2 (Or.inl hliteral))) nofun

variable [Regex.CharacterNames]

theorem readLiteral_of_none (h : literalParts? s.toList = none) :
    readLiteral k (.text s) = .ok (.text s) := by
  rw [readLiteral, h]

/-- A text with the parts of a literal is compiled from its body with the flags of its letters. -/
theorem readLiteral_of_parts (h : literalParts? s.toList = some (body, letters)) :
    readLiteral k (.text s) = do
      let flags ← literalFlags k s {} letters
      return .regex (← compileFor k (String.ofList body) s flags) := by
  rw [readLiteral, h]

/-- A literal with known letters only is compiled from its body with their flags. -/
theorem readLiteral_of_known (h : literalParts? s.toList = some (body, letters))
    (hknown : ∀ c ∈ letters, c ∈ knownLetters) :
    readLiteral k (.text s) =
      (compileFor k (String.ofList body) s (flagsOf letters)).map .regex := by
  have hflags : Regex.Flags.union {} (flagsOf letters) = flagsOf letters := by
    simp [Regex.Flags.union, flagsOf]
  rw [readLiteral_of_parts h, literalFlags_of_known k s hknown, hflags]
  rfl

/-- A literal with a letter that is not known is refused because of such a letter. -/
theorem readLiteral_of_unknown (h : literalParts? s.toList = some (body, letters))
    (hunknown : ∃ c ∈ letters, c ∉ knownLetters) :
    ∃ c ∈ letters, c ∉ knownLetters ∧ readLiteral k (.text s) = .error (.badFlag k c s) := by
  obtain ⟨c, hc, hc', herror⟩ := literalFlags_of_unknown k s hunknown {}
  refine ⟨c, hc, hc', ?_⟩
  rw [readLiteral_of_parts h, herror]
  rfl

theorem compileFor_of_ok {source shown : String} {flags : Regex.Flags} {r : Regex}
    (h : Regex.compile source flags = .ok r) : compileFor k source shown flags = .ok r := by
  rw [compileFor, h]

/-- A body that cannot be compiled is a fault of the setting if its form is wrong; any other error
is passed on. -/
theorem compileFor_of_error {source shown : String} {flags : Regex.Flags} {e : Regex.Fault}
    (h : Regex.compile source flags = .error e) :
    compileFor k source shown flags =
      .error (if e.cause.isSyntax then .badRegex k shown (e.message source.toList)
        else .regexError e.cause) := by
  rw [compileFor, h]
  dsimp only
  split <;> rfl

/-- Compiling for a setting succeeds if compiling does. -/
theorem compileFor_eq_ok_iff {source shown : String} {flags : Regex.Flags} {r : Regex} :
    compileFor k source shown flags = .ok r ↔ Regex.compile source flags = .ok r := by
  refine ⟨fun h => ?_, compileFor_of_ok⟩
  cases hcompile : Regex.compile source flags with
  | ok r' =>
    obtain rfl := Except.ok.inj ((compileFor_of_ok hcompile).symm.trans h)
    rfl
  | error e => exact absurd ((compileFor_of_error hcompile).symm.trans h) nofun

/-- An expression has the text that it is made from. -/
theorem source_of_compile {source : String} {flags : Regex.Flags} {r : Regex}
    (h : Regex.compile source flags = .ok r) : r.source = source := by
  unfold Regex.compile at h
  split at h
  · cases h
    rfl
  · cases h

/-- What a text is read as that is read as a literal. -/
theorem exists_regex_of_parts (h : literalParts? s.toList = some (body, letters)) {v : Value}
    (hv : readLiteral k (.text s) = .ok v) : ∃ r, v = .regex r ∧ r.source = String.ofList body := by
  rw [readLiteral_of_parts h] at hv
  simp only [bind_eq_ok_iff] at hv
  obtain ⟨flags, -, r, hr, ⟨⟩⟩ := hv
  exact ⟨r, rfl, source_of_compile (compileFor_eq_ok_iff.1 hr)⟩

end Reading

end PixelUnit.Settings
