import PixelUnit.Proofs.Text.Runs
import PixelUnit.Regex.Matcher

/-!
# Rounds of one character

A greedy repetition of something that takes one character tries the longest run first and gives
characters back one by one. `greedy_run` says what comes of it when what goes on gives the same
answer `x` at every place inside the run: the answer at the end of the run, and `x` only if there
is none. Places are written out, with the run and the text behind it, so that what the groups hold
can be read off.

`Pattern.cutFrom` is the text as a replacement sees it, characters passed over and matches found.
`Pattern.replaceFrom_eq_flatMap` says that a replacement puts these together again.
-/

namespace PixelUnit.Regex

/-! ## Repetitions -/

namespace Matcher

variable {p : Char → Bool} {b r : List Char} {g : List (Nat × Span)} {k : Continuation}

@[simp] theorem one_nil : one p ⟨b, [], g⟩ k = none := rfl

@[simp] theorem one_cons (c : Char) :
    one p ⟨b, c :: r, g⟩ k = if p c then k ⟨c :: b, r, g⟩ else none := rfl

/-- No character is read where none that is looked for follows. -/
theorem one_of_head (hr : ∀ c ∈ r.head?, p c = false) : one p ⟨b, r, g⟩ k = none := by
  cases r with
  | nil => rfl
  | cons c r => simp [hr c rfl]

/-- A round beyond the required ones, where every round takes a character. -/
theorem greedy_succ {body : Matcher} {least fuel count : Nat} {last : Option Nat} {s : Place}
    (h : least ≤ count) :
    greedy body least none false k (fuel + 1) count last s =
      (body s (greedy body least none false k fuel (count + 1) none)).or (k s) := by
  have hlt : ¬count < least := by omega
  simp [greedy, hlt, mayGoOn, stamp]

/-- A repetition without required rounds succeeds wherever what goes on always does. -/
theorem isSome_greedy_zero {body : Matcher} {canStall : Bool} (hk : ∀ s, (k s).isSome = true)
    (fuel count : Nat) (last : Option Nat) (s : Place) :
    (greedy body 0 none canStall k (fuel + 1) count last s).isSome = true := by
  rw [greedy, if_neg (Nat.not_lt_zero count)]
  split
  · rw [Option.isSome_or, hk, Bool.or_true]
  · exact hk s

/-- A run of characters that satisfy `p`, with a text behind it that does not go on with one, is
taken as a whole if what goes on succeeds behind it. -/
theorem greedy_run {x : Option Place} {least : Nat} (hr : ∀ c ∈ r.head?, p c = false)
    (run : List Char) (hrun : ∀ c ∈ run, p c = true) (b : List Char)
    (hk : ∀ ds es, run = ds ++ es → es ≠ [] → k ⟨ds.reverse ++ b, es ++ r, g⟩ = x)
    {fuel count : Nat} (hfuel : run.length < fuel) (hcount : least ≤ count) (last : Option Nat) :
    greedy (one p) least none false k fuel count last ⟨b, run ++ r, g⟩ =
      (k ⟨run.reverse ++ b, r, g⟩).or (if run = [] then none else x) := by
  induction run generalizing b fuel count last with
  | nil =>
    obtain ⟨fuel, rfl⟩ := Nat.exists_eq_add_one.2 (Nat.zero_lt_of_lt hfuel)
    rw [greedy_succ hcount]
    simp [one_of_head hr]
  | cons c run ih =>
    obtain ⟨fuel, rfl⟩ := Nat.exists_eq_add_one.2 (Nat.zero_lt_of_lt hfuel)
    -- one round takes `c`; the rounds behind it see a shorter run
    have hc : p c = true := hrun c (by simp)
    have htail : ∀ ds es, run = ds ++ es → es ≠ [] →
        k ⟨ds.reverse ++ (c :: b), es ++ r, g⟩ = x := fun ds es he hes => by
      simpa using hk (c :: ds) es (by simp [he]) hes
    have hhere : k ⟨b, c :: (run ++ r), g⟩ = x := by
      simpa using hk [] (c :: run) rfl (by simp)
    have hrest := ih (fun d hd => hrun d (by simp [hd])) (c :: b) htail
      (Nat.lt_of_succ_lt_succ hfuel) (Nat.le_succ_of_le hcount) none
    rw [greedy_succ hcount, List.cons_append, one_cons, if_pos hc, hrest, hhere, Option.or_assoc]
    by_cases hn : run = [] <;> simp [hn]

end Matcher

namespace Pattern

variable {p : Char → Bool} {q : Pattern} {g : List (Nat × Span)} {k : Continuation}

/-- Any number of characters that satisfy `p`. -/
theorem run_rep_zero (hq : q.run = .one p) (hw : (q.width fun _ => .exactly 0).least = 1)
    (x : Option Place) (b cs : List Char)
    (hk : ∀ ds es, cs.takeWhile p = ds ++ es → es ≠ [] →
      k ⟨ds.reverse ++ b, es ++ cs.dropWhile p, g⟩ = x) :
    (rep 0 none .greedy q).run ⟨b, cs, g⟩ k =
      (k ⟨(cs.takeWhile p).reverse ++ b, cs.dropWhile p, g⟩).or
        (if cs.takeWhile p = [] then none else x) := by
  have hfuel : (cs.takeWhile p).length < 0 + cs.length + 2 := by
    have := (List.takeWhile_sublist p (l := cs)).length_le
    omega
  have hrun := Matcher.greedy_run (fun _ => Text.eq_false_of_mem_head?_dropWhile) (cs.takeWhile p)
    (fun _ => List.mem_takeWhile_imp) b hk hfuel (Nat.le_refl 0) none
  rw [List.takeWhile_append_dropWhile] at hrun
  rw [← hrun]
  simp [run, hq, hw]

/-- A pattern of any number of rounds is found in every text. -/
theorem isSome_search_rep_zero (q : Pattern) (text : List Char) :
    ((rep 0 none .greedy q).search text).isSome = true := by
  have hmatch (s : Place) : ((rep 0 none .greedy q).matchAt s).isSome = true := by
    rw [matchAt, Option.isSome_map, run]
    exact Matcher.isSome_greedy_zero (fun _ => rfl) _ 0 none s
  unfold search
  cases text with
  | nil => exact hmatch _
  | cons c r => rw [searchFrom, Option.isSome_or, hmatch, Bool.true_or]

/-- One or more characters that satisfy `p`, where what goes on cannot start with one. -/
theorem run_rep_one (hq : q.run = .one p) (hw : (q.width fun _ => .exactly 0).least = 1)
    (hk : ∀ b c r, p c = true → k ⟨b, c :: r, g⟩ = none) (b cs : List Char) :
    (rep 1 none .greedy q).run ⟨b, cs, g⟩ k =
      if cs.takeWhile p = [] then none
      else k ⟨(cs.takeWhile p).reverse ++ b, cs.dropWhile p, g⟩ := by
  cases cs with
  | nil => simp [run, hq, Matcher.greedy]
  | cons c cs =>
    by_cases hc : p c = true
    · have hfuel : (cs.takeWhile p).length < 1 + cs.length + 2 := by
        have := (List.takeWhile_sublist p (l := cs)).length_le
        omega
      have hstop : ∀ ds es, cs.takeWhile p = ds ++ es → es ≠ [] →
          k ⟨ds.reverse ++ (c :: b), es ++ cs.dropWhile p, g⟩ = none := by
        intro ds es he hes
        obtain ⟨e, es, rfl⟩ := List.exists_cons_of_ne_nil hes
        exact hk _ _ _ (List.mem_takeWhile_imp (l := cs) (by rw [he]; simp))
      have hrun := Matcher.greedy_run (fun _ => Text.eq_false_of_mem_head?_dropWhile)
        (cs.takeWhile p) (fun _ => List.mem_takeWhile_imp) (c :: b) hstop hfuel (Nat.le_refl 1) none
      rw [List.takeWhile_append_dropWhile] at hrun
      have hfirst : (rep 1 none .greedy q).run ⟨b, c :: cs, g⟩ k =
          Matcher.greedy (.one p) 1 none false k (1 + cs.length + 2) 1 none ⟨c :: b, cs, g⟩ := by
        simp [run, hq, hw, Matcher.greedy, hc]
      rw [hfirst, hrun]
      simp [hc]
    · simp [run, hq, Matcher.greedy, hc]

/-- One character that satisfies `p`, or none. -/
theorem run_rep_maybe (hq : q.run = .one p) (b cs : List Char) :
    (rep 0 (some 1) .greedy q).run ⟨b, cs, g⟩ k =
      (Matcher.one p ⟨b, cs, g⟩ k).or (k ⟨b, cs, g⟩) := by
  simp [run, Matcher.greedy, Matcher.mayGoOn, Matcher.stamp, hq]

/-! ## Replacements -/

/-- A text as a replacement sees it: characters passed over and matches, from left to right. -/
def cutFrom (p : Pattern) (before : List Char) : List Char → List (Char ⊕ Match)
  | [] => []
  | c :: r =>
    match p.matchAt ⟨before, c :: r, []⟩ with
    | some m =>
      if m.last.after.length < r.length + 1 then
        .inr m :: p.cutFrom m.last.before m.last.after
      else .inl c :: p.cutFrom (c :: before) r
    | none => .inl c :: p.cutFrom (c :: before) r
termination_by text => text.length

/-- A replacement is made match by match, and keeps the characters between the matches. -/
theorem replaceFrom_eq_flatMap (p : Pattern) (f : Match → List Char) (before text : List Char) :
    p.replaceFrom f before text = (p.cutFrom before text).flatMap (Sum.elim (fun c => [c]) f) := by
  fun_induction p.cutFrom before text with
  | case1 => simp [replaceFrom]
  | case2 before c r m hm hlt ih => simp [replaceFrom, hm, hlt, ih]
  | case3 before c r m hm hlt ih =>
    rw [replaceFrom]
    simp only [hm, if_neg hlt, ih, List.flatMap_cons, Sum.elim_inl, List.singleton_append]
  | case4 before c r hm ih => simp [replaceFrom, hm, ih]

/-- The matches that a replacement in a text deals with. -/
def findAll (p : Pattern) (text : List Char) : List Match :=
  (p.cutFrom [] text).filterMap Sum.getRight?

end Pattern

end PixelUnit.Regex
