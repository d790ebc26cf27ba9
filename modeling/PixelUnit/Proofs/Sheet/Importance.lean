import Mathlib.Data.List.Forall2
import PixelUnit.Proofs.Sheet.Cleaning
import PixelUnit.Proofs.Sheet.Comments

/-!
# Marks of importance

A text ends in a mark of importance (`EndsInMark`) if it holds one with nothing but blanks behind
it. This is when the mark is split off once the blanks are gone, at either end
(`splitImportant_trimEnd_eq_none_iff`, `splitImportant_trim_eq_none_iff`). A mark behind the last
comment of a text is seen without the comments as well (`EndsInMark.withoutComments`).

Several marks may stand one behind the other (`marksAtEnd`). Cleaning a value takes one of them away
at most, so one is left in the clean value unless there was just the one that was asked for
(`splitImportant_cleanValue_eq_none_iff`).
-/

namespace PixelUnit.Sheet

/-! ## Blank characters -/

/-- The code points that are blank. -/
def blankCodes : List Nat :=
  Text.blankRanges.flatMap fun (first, last) => List.range' first (last + 1 - first)

/-- There are finitely many blank characters. -/
theorem mem_blankCodes {c : Char} (h : Text.isBlank c = true) : c.toNat ∈ blankCodes := by
  rw [Text.isBlank, Text.Ranges.contains, List.any_eq_true] at h
  obtain ⟨⟨first, last⟩, hmem, hc⟩ := h
  simp only [Bool.and_eq_true, decide_eq_true_eq] at hc
  rw [blankCodes, List.mem_flatMap]
  exact ⟨_, hmem, List.mem_range'_1.2 ⟨hc.1, by omega⟩⟩

/-- A blank has no other case. -/
theorem lower_of_isBlank {c : Char} (h : Text.isBlank c = true) : Text.lower c = c := by
  have hnone : ∀ n ∈ blankCodes, Text.caseRuns.find? (·.contains n) = none :=
    List.all_iff_forall_prop.1 (by decide +kernel)
  rw [Text.lower, hnone _ (mem_blankCodes h)]

/-- No blank is the last letter of a mark. -/
theorem isBlank_of_sameUpToCase {c : Char} (h : Text.sameUpToCase 't' c = true) :
    Text.isBlank c = false := by
  refine Bool.eq_false_iff.2 fun hblank => ?_
  have ht : Text.isBlank 't' = false := by decide +kernel
  have hvariants : Text.caseVariants (Text.lower 't') = ['t'] := by decide +kernel
  rw [Text.sameUpToCase, lower_of_isBlank hblank, hvariants] at h
  obtain rfl : c = 't' := by
    rcases Bool.or_eq_true_iff.1 h with h | h
    · exact (beq_iff_eq.1 h).symm
    · exact List.mem_singleton.1 (List.contains_iff_mem.1 h)
  rw [ht] at hblank
  cases hblank

/-! ## Trimming -/

section Trim

variable {cs x b : List Char} {c : Char}

theorem isBlank_of_mem_leadingBlanks (h : c ∈ Text.leadingBlanks cs) : Text.isBlank c = true :=
  List.mem_takeWhile_imp h

theorem isBlank_of_mem_trailingBlanks (h : c ∈ Text.trailingBlanks cs) : Text.isBlank c = true :=
  List.mem_takeWhile_imp (List.mem_reverse.1 h)

/-- The blanks behind the last character that is none are trimmed. -/
theorem trimEnd_concat (hc : Text.isBlank c = false) (hb : ∀ d ∈ b, Text.isBlank d = true) :
    Text.trimEnd (x ++ [c] ++ b) = x ++ [c] := by
  have hrun : ∀ d ∈ b.reverse, Text.isBlank d = true := fun d hd => hb d (List.mem_reverse.1 hd)
  have hstop : ∀ d ∈ (x ++ [c]).reverse.head?, Text.isBlank d = false := by
    simpa using hc
  rw [Text.trimEnd, List.reverse_append, Text.dropWhile_run hrun hstop, List.reverse_reverse]

/-- No line feed is left at the end of a text that was trimmed. -/
theorem dropLineFeed_trimEnd (cs : List Char) :
    dropLineFeed (Text.trimEnd cs) = Text.trimEnd cs := by
  rw [dropLineFeed, if_neg]
  intro hlast
  rw [beq_iff_eq, Text.trimEnd, List.getLast?_reverse] at hlast
  have hblank := Text.eq_false_of_mem_head?_dropWhile hlast
  exact absurd hblank (by decide +kernel)

end Trim

/-! ## Marks -/

/-- A mark of importance, from its exclamation mark on. -/
def IsMark (core : List Char) : Prop :=
  ∃ inner word, core = '!' :: (inner ++ word) ∧ (∀ c ∈ inner, Text.isBlank c = true) ∧
    List.Forall₂ (fun w c => Text.sameUpToCase w c = true) importantWord word

/-- A word is taken off the front of a text if its letters stand there, in either case. -/
theorem takeWordUpToCase_eq_some_iff {ws cs t u : List Char} :
    takeWordUpToCase ws cs = some (t, u) ↔
      cs = t ++ u ∧ List.Forall₂ (fun w c => Text.sameUpToCase w c = true) ws t := by
  fun_induction takeWordUpToCase ws cs generalizing t u with
  | case1 cs =>
    constructor
    · intro h
      obtain ⟨rfl, rfl⟩ := Prod.mk.inj (Option.some.inj h)
      exact ⟨rfl, .nil⟩
    · rintro ⟨rfl, h⟩
      cases h
      rfl
  | case2 w ws =>
    refine iff_of_false (fun h => by cases h) ?_
    rintro ⟨happ, h⟩
    cases h
    cases happ
  | case3 w ws c cs hsame ih =>
    rw [Option.map_eq_some_iff]
    constructor
    · rintro ⟨⟨t', u'⟩, hs, he⟩
      obtain ⟨rfl, rfl⟩ := Prod.mk.inj he
      obtain ⟨rfl, hall⟩ := ih.1 hs
      exact ⟨rfl, .cons hsame hall⟩
    · rintro ⟨happ, h⟩
      cases h with
      | cons _ hall =>
        obtain ⟨rfl, rfl⟩ := List.cons.inj happ
        exact ⟨_, ih.2 ⟨rfl, hall⟩, rfl⟩
  | case4 w ws c cs hsame =>
    refine iff_of_false (fun h => by cases h) ?_
    rintro ⟨happ, h⟩
    cases h with
    | cons hc _ =>
      obtain ⟨rfl, -⟩ := List.cons.inj happ
      exact hsame hc

theorem isBlank_bang : Text.isBlank '!' = false := by decide +kernel

namespace IsMark

variable {core : List Char}

/-- A mark of importance ends in a character that is not blank. -/
theorem eq_concat (h : IsMark core) : ∃ x c, core = x ++ [c] ∧ Text.isBlank c = false := by
  obtain ⟨inner, word, rfl, -, hword⟩ := h
  have hrev := List.rel_reverse hword
  rw [importantWord_reverse] at hrev
  cases hw : word.reverse with
  | nil =>
    rw [hw] at hrev
    cases hrev
  | cons c r =>
    rw [hw] at hrev
    cases hrev with
    | cons hc _ =>
      refine ⟨'!' :: (inner ++ r.reverse), c, ?_, isBlank_of_sameUpToCase hc⟩
      rw [← List.reverse_reverse word, hw]
      simp

/-- What stands in a mark. -/
theorem mem (h : IsMark core) {c : Char} (hc : c ∈ core) :
    c = '!' ∨ Text.isBlank c = true ∨ ∃ w ∈ importantWord, Text.sameUpToCase w c = true := by
  obtain ⟨inner, word, rfl, hinner, hword⟩ := h
  rcases List.mem_cons.1 hc with hc | hc
  · exact Or.inl hc
  rcases List.mem_append.1 hc with hc | hc
  · exact Or.inr (Or.inl (hinner c hc))
  · have htake : takeWordUpToCase importantWord (word ++ []) = some (word, []) :=
      takeWordUpToCase_eq_some_iff.2 ⟨rfl, hword⟩
    exact Or.inr (Or.inr (exists_of_takeWordUpToCase htake c hc))

/-- A mark of importance has no comment in it. -/
theorem commentFree (h : IsMark core) : CommentFree core := by
  have hword : ∀ w ∈ importantWord, Text.sameUpToCase w '/' = false ∧
      Text.sameUpToCase w '*' = false := List.all_iff_forall_prop.1 (by decide +kernel)
  constructor
  · intro hmem
    rcases h.mem hmem with h | h | ⟨w, hw, h⟩
    · exact absurd h (by decide)
    · exact absurd h (by decide +kernel)
    · rw [(hword w hw).1] at h
      cases h
  · intro hmem
    rcases h.mem hmem with h | h | ⟨w, hw, h⟩
    · exact absurd h (by decide)
    · exact absurd h (by decide +kernel)
    · rw [(hword w hw).2] at h
      cases h

end IsMark

variable {cs front mark core b : List Char}

/-- A mark at the end of a text is split off, with the blanks before it. -/
theorem isSome_splitImportant (h : IsMark core) {x : List Char}
    (hcs : dropLineFeed cs = x ++ core) :
    (splitImportant cs).isSome = true := by
  obtain ⟨inner, word, rfl, hinner, hword⟩ := h
  have hrev : (dropLineFeed cs).reverse = word.reverse ++ (inner.reverse ++ '!' :: x.reverse) := by
    rw [hcs]
    simp
  have htake : takeWordUpToCase importantWord.reverse (dropLineFeed cs).reverse =
      some (word.reverse, inner.reverse ++ '!' :: x.reverse) :=
    takeWordUpToCase_eq_some_iff.2 ⟨hrev, List.rel_reverse hword⟩
  have hrun : ∀ c ∈ inner.reverse, Text.isBlank c = true := fun c hc =>
    hinner c (List.mem_reverse.1 hc)
  have hstop : ∀ c ∈ ('!' :: x.reverse).head?, Text.isBlank c = false := fun c hc =>
    Option.some.inj hc ▸ isBlank_bang
  rw [splitImportant, htake]
  dsimp only
  rw [Text.dropWhile_run hrun hstop]
  rfl

/-- What is split off a text is a mark and the blanks before it. -/
theorem exists_isMark (h : splitImportant cs = some (front, mark)) :
    ∃ blanks core, mark = blanks ++ core ∧ (∀ c ∈ blanks, Text.isBlank c = true) ∧
      IsMark core := by
  unfold splitImportant at h
  split at h
  · cases h
  · next word r htake =>
    split at h
    · next s hs =>
      obtain ⟨-, rfl⟩ := Prod.mk.inj (Option.some.inj h)
      refine ⟨(s.takeWhile Text.isBlank).reverse,
        '!' :: ((r.takeWhile Text.isBlank).reverse ++ word.reverse), by simp, ?_, _, _, rfl, ?_, ?_⟩
      · exact fun c hc => List.mem_takeWhile_imp (List.mem_reverse.1 hc)
      · exact fun c hc => List.mem_takeWhile_imp (List.mem_reverse.1 hc)
      · have hword := List.rel_reverse (takeWordUpToCase_eq_some_iff.1 htake).2
        rwa [List.reverse_reverse] at hword
    · cases h

/-- A text has a mark of importance with nothing but blanks behind it. -/
def EndsInMark (cs : List Char) : Prop :=
  ∃ core b, IsMark core ∧ (∀ c ∈ b, Text.isBlank c = true) ∧ core ++ b <:+ cs

/-- Blanks may follow a mark of importance. -/
theorem EndsInMark.append (h : EndsInMark cs) (hb : ∀ c ∈ b, Text.isBlank c = true) :
    EndsInMark (cs ++ b) := by
  obtain ⟨core, b', hcore, hb', y, rfl⟩ := h
  refine ⟨core, b' ++ b, hcore, fun c hc => ?_, y, by simp⟩
  exact (List.mem_append.1 hc).elim (hb' c) (hb c)

theorem dropLineFeed_append (cs : List Char) :
    ∃ b, (∀ c ∈ b, Text.isBlank c = true) ∧ dropLineFeed cs ++ b = cs := by
  rw [dropLineFeed]
  split
  · next hlast =>
    obtain ⟨ds, rfl⟩ := List.getLast?_eq_some_iff.1 (beq_iff_eq.1 hlast)
    refine ⟨['\n'], fun c hc => ?_, by rw [List.dropLast_concat]⟩
    rw [List.mem_singleton.1 hc]
    decide
  · exact ⟨[], List.forall_mem_nil _, List.append_nil cs⟩

/-- If a mark of importance is split off a text, the text ends in one. -/
theorem endsInMark_of_splitImportant (h : splitImportant cs = some (front, mark)) :
    EndsInMark cs := by
  obtain ⟨blanks, core, rfl, -, hcore⟩ := exists_isMark h
  obtain ⟨b, hb, happ⟩ := dropLineFeed_append cs
  refine ⟨core, b, hcore, hb, front ++ blanks, ?_⟩
  rw [← happ, ← splitImportant_append h]
  simp

/-- A mark at the end of a text is split off once the blanks behind it are gone. -/
theorem splitImportant_trimEnd_eq_none_iff :
    splitImportant (Text.trimEnd cs) = none ↔ ¬EndsInMark cs := by
  constructor
  · rintro hnone ⟨core, b, hcore, hb, y, rfl⟩
    obtain ⟨x, c, rfl, hc⟩ := hcore.eq_concat
    have htrim : Text.trimEnd (y ++ (x ++ [c] ++ b)) = y ++ (x ++ [c]) := by
      simpa using trimEnd_concat (x := y ++ x) hc hb
    have hsome := isSome_splitImportant hcore ((dropLineFeed_trimEnd _).trans htrim)
    rw [hnone] at hsome
    cases hsome
  · intro hnone
    refine Option.eq_none_iff_forall_ne_some.2 fun ⟨front, mark⟩ hsome => hnone ?_
    rw [← Text.trimEnd_append cs]
    exact (endsInMark_of_splitImportant hsome).append fun c => isBlank_of_mem_trailingBlanks

/-- Blanks in front of a text have no part in whether it ends in a mark. -/
theorem endsInMark_trimStart_iff : EndsInMark (Text.trimStart cs) ↔ EndsInMark cs := by
  constructor
  · rintro ⟨core, b, hcore, hb, hsuffix⟩
    exact ⟨core, b, hcore, hb, hsuffix.trans (List.dropWhile_suffix _)⟩
  · rintro ⟨core, b, hcore, hb, y, hy⟩
    refine ⟨core, b, hcore, hb, ?_⟩
    rw [← Text.trimStart_append cs] at hy
    rcases List.append_eq_append_iff.1 hy with ⟨z, hlead, hz⟩ | ⟨z, -, hrest⟩
    · cases z with
      | nil => exact ⟨[], hz⟩
      | cons d z =>
        -- the mark would start among the blanks
        obtain ⟨inner, word, rfl, -⟩ := hcore
        obtain rfl : '!' = d := (List.cons.inj hz).1
        have hbang : '!' ∈ Text.leadingBlanks cs := by rw [hlead]; simp
        exact absurd (isBlank_of_mem_leadingBlanks hbang) (by simp [isBlank_bang])
    · exact ⟨z, hrest.symm⟩

/-- A mark at the end of a text is split off once the blanks at both ends are gone. -/
theorem splitImportant_trim_eq_none_iff :
    splitImportant (Text.trim cs) = none ↔ ¬EndsInMark cs := by
  rw [Text.trim, splitImportant_trimEnd_eq_none_iff, endsInMark_trimStart_iff]

/-! ## Several marks -/

/-- Splitting a mark of importance off makes a text shorter. -/
theorem length_front_lt (h : splitImportant (Text.trimEnd cs) = some (front, mark)) :
    front.length < cs.length := by
  obtain ⟨blanks, core, rfl, -, inner, word, rfl, -⟩ := exists_isMark h
  have happ := splitImportant_append h
  rw [dropLineFeed_trimEnd] at happ
  have hlen := congrArg List.length (Text.trimEnd_append cs)
  rw [← happ] at hlen
  simp only [List.length_append, List.length_cons] at hlen
  omega

/-- The number of marks that a text ends in, one behind the other. -/
def marksAtEnd (cs : List Char) : Nat :=
  match h : splitImportant (Text.trimEnd cs) with
  | some (front, _) => marksAtEnd front + 1
  | none => 0
termination_by cs.length
decreasing_by exact length_front_lt h

theorem marksAtEnd_of_some (h : splitImportant (Text.trimEnd cs) = some (front, mark)) :
    marksAtEnd cs = marksAtEnd front + 1 := by
  rw [marksAtEnd]
  split <;> rename_i heq <;> rw [h] at heq <;> cases heq
  rfl

/-- A text has no marks of importance at its end if it does not end in one. -/
theorem marksAtEnd_eq_zero_iff : marksAtEnd cs = 0 ↔ ¬EndsInMark cs := by
  rw [← splitImportant_trimEnd_eq_none_iff]
  cases h : splitImportant (Text.trimEnd cs) with
  | none =>
    refine iff_of_true ?_ rfl
    rw [marksAtEnd]
    split <;> rename_i heq
    · rw [h] at heq
      cases heq
    · rfl
  | some m =>
    obtain ⟨front, mark⟩ := m
    rw [marksAtEnd_of_some h]
    exact iff_of_false (Nat.succ_ne_zero _) nofun

/-! ## Clean values -/

/-- The text of some tokens without the comments among them. -/
def withoutComments (ts : List Token) : List Char :=
  (rawText (ts.filter (·.kind != .comment))).toList

theorem withoutComments_concat (ts : List Token) (t : Token) : withoutComments (ts ++ [t]) =
    withoutComments ts ++ if t.kind = .comment then [] else t.raw.toList := by
  by_cases ht : t.kind = .comment <;> simp [withoutComments, ht]

/-- A text without slashes at the end of some tokens stays without the comments. -/
theorem suffix_withoutComments {ts : List Token}
    (hts : ∀ t ∈ ts, t.kind.Marks t.raw.toList) {m : List Char} (hm : '/' ∉ m)
    (h : m <:+ (rawText ts).toList) : m <:+ withoutComments ts := by
  induction ts using List.reverseRecOn generalizing m with
  | nil => exact h
  | append_singleton ts t ih =>
    have htext : (rawText (ts ++ [t])).toList = (rawText ts).toList ++ t.raw.toList := by simp
    rw [htext] at h
    rw [withoutComments_concat]
    obtain ⟨y, hy⟩ := h
    by_cases ht : t.kind = .comment
    · -- a comment ends in a slash, so nothing but the empty text is left of `m`
      rcases List.eq_nil_or_concat' m with rfl | ⟨m, c, rfl⟩
      · exact List.nil_suffix
      · have hmarks := hts t (by simp)
        rw [ht] at hmarks
        obtain ⟨body, hbody⟩ := hmarks
        have hlast : y ++ m ++ [c] =
            (rawText ts).toList ++ '/' :: '*' :: body ++ ['*'] ++ ['/'] := by
          simpa [hbody] using hy
        obtain rfl := List.singleton_inj.1 (List.append_inj' hlast rfl).2
        exact absurd (List.mem_append_right m (List.mem_singleton_self '/')) hm
    · rw [if_neg ht]
      rcases List.append_eq_append_iff.1 hy with ⟨z, hz, rfl⟩ | ⟨z, -, hraw⟩
      · rw [List.mem_append, not_or] at hm
        obtain ⟨x, hx⟩ := ih (fun u hu => hts u (by simp [hu])) hm.1 ⟨y, hz.symm⟩
        exact ⟨x, by rw [← hx, List.append_assoc]⟩
      · exact ⟨withoutComments ts ++ z, by rw [hraw, List.append_assoc]⟩

/-- A mark of importance at the end is still there once all comments are taken away. -/
theorem EndsInMark.withoutComments {ts : List Token}
    (hts : ∀ t ∈ ts, t.kind.Marks t.raw.toList) (h : EndsInMark (rawText ts).toList) :
    EndsInMark (withoutComments ts) := by
  obtain ⟨core, b, hcore, hb, hsuffix⟩ := h
  have hfree := hcore.commentFree.append (.of_isBlank hb)
  exact ⟨core, b, hcore, hb, suffix_withoutComments hts hfree.slash hsuffix⟩

/-- The front of a text is trimmed as it is without the text behind it, unless all of it is
blank. -/
theorem exists_trimStart_append (cs r : List Char) :
    ∃ q, Text.trimStart (cs ++ r) = Text.trimStart cs ++ q ∧ q <:+ r := by
  rw [Text.trimStart, List.dropWhile_append]
  split
  · next hnil => exact ⟨_, by rw [Text.trimStart, List.isEmpty_iff.1 hnil]; rfl,
      List.dropWhile_suffix _⟩
  · exact ⟨r, rfl, List.suffix_refl r⟩

section Cleaning

variable {ts : List Token}

/-- The value in front of a mark of importance is what is left when one mark is split off. -/
theorem cleanValue_of_endsInMark (h : EndsInMark (withoutComments ts)) :
    ∃ front mark, splitImportant (Text.trimEnd (withoutComments ts)) = some (front, mark) ∧
      cleanValue ts true = Text.trim front := by
  cases hsplit : splitImportant (Text.trimEnd (withoutComments ts)) with
  | none => exact absurd h (splitImportant_trimEnd_eq_none_iff.1 hsplit)
  | some m =>
    refine ⟨m.1, m.2, rfl, ?_⟩
    unfold withoutComments at hsplit
    rw [cleanValue, if_pos rfl]
    dsimp only
    rw [hsplit]

/-- A clean value has no mark at its end if one mark was to be taken away, and there was no other
one. -/
theorem splitImportant_cleanValue_eq_none_iff {important : Bool}
    (h : important = true → EndsInMark (withoutComments ts)) :
    splitImportant (cleanValue ts important) = none ↔
      marksAtEnd (withoutComments ts) = if important then 1 else 0 := by
  cases important with
  | false =>
    have hclean : cleanValue ts false = Text.trim (withoutComments ts) := rfl
    rw [hclean, splitImportant_trim_eq_none_iff, if_neg Bool.false_ne_true, marksAtEnd_eq_zero_iff]
  | true =>
    obtain ⟨front, mark, hsplit, hclean⟩ := cleanValue_of_endsInMark (h rfl)
    rw [hclean, splitImportant_trim_eq_none_iff, if_pos rfl, marksAtEnd_of_some hsplit,
      Nat.add_eq_right, marksAtEnd_eq_zero_iff]

/-- What is taken away behind a clean value opens no comment. -/
theorem exists_trimStart_eq_cleanValue {important : Bool}
    (h : important = true → EndsInMark (withoutComments ts)) :
    ∃ q, Text.trimStart (withoutComments ts) = cleanValue ts important ++ q ∧ CommentFree q := by
  have htrailing : ∀ cs, CommentFree (Text.trailingBlanks cs) := fun cs =>
    .of_isBlank fun c => isBlank_of_mem_trailingBlanks
  cases important with
  | false => exact ⟨_, (Text.trimEnd_append _).symm, htrailing _⟩
  | true =>
    obtain ⟨front, mark, hsplit, hclean⟩ := cleanValue_of_endsInMark (h rfl)
    obtain ⟨blanks, core, rfl, hblanks, hcore⟩ := exists_isMark hsplit
    have happ := splitImportant_append hsplit
    rw [dropLineFeed_trimEnd] at happ
    -- behind the front stand the mark and the blanks around it
    have htext : withoutComments ts =
        front ++ (blanks ++ core ++ Text.trailingBlanks (withoutComments ts)) := by
      conv_lhs => rw [← Text.trimEnd_append (withoutComments ts), ← happ]
      simp
    have hbehind : CommentFree (blanks ++ core ++ Text.trailingBlanks (withoutComments ts)) :=
      ((CommentFree.of_isBlank hblanks).append hcore.commentFree).append (htrailing _)
    obtain ⟨q, hq, hsuffix⟩ := exists_trimStart_append front
      (blanks ++ core ++ Text.trailingBlanks (withoutComments ts))
    refine ⟨Text.trailingBlanks (Text.trimStart front) ++ q, ?_,
      (htrailing _).append (hbehind.mono hsuffix.subset)⟩
    rw [hclean, htext, hq, Text.trim, ← List.append_assoc, Text.trimEnd_append]

end Cleaning

end PixelUnit.Sheet
