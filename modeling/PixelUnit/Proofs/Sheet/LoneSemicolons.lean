import Mathlib.Data.List.Infix
import PixelUnit.Proofs.Sheet.Steps

/-!
# Semicolons that end nothing

A semicolon that stands where a node could start ends nothing. Such semicolons are found without
building a tree (`loneSemicolons`).

A reading changes the list of tokens that it is given at these semicolons only: behind each of them
it puts in one token of white space (`Builder.Step.leaves`). So the list is left as it was exactly
if there are none (`Reading.tokens_eq_iff`).
-/

namespace PixelUnit.Sheet

theorem isSome_declarationOf_iff (before : String) (ts : List Token) :
    (declarationOf before ts).isSome = true ↔ ∃ d : DeclarationCut ts, d.Exact := by
  constructor
  · intro h
    obtain ⟨⟨content, raws⟩, hdecl⟩ := Option.isSome_iff_exists.1 h
    obtain ⟨d, hd, -, -⟩ := exists_cut_of_declarationOf hdecl
    exact ⟨d, hd⟩
  · rintro ⟨d, hd⟩
    rw [d.declarationOf_eq hd]
    rfl

namespace Prelude

/-- Whether a statement makes a node: a container if it opens a block, else a declaration. -/
def makesNode (p : Prelude) : Bool :=
  p.opensBlock || (declarationOf "" p.tokens).isSome

theorem makesNode_iff (p : Prelude) :
    p.makesNode = true ↔ p.opensBlock = true ∨ ∃ d : DeclarationCut p.tokens, d.Exact := by
  rw [makesNode, Bool.or_eq_true, isSome_declarationOf_iff]

theorem taken_ne_nil_of_makesNode {p : Prelude} (h : p.makesNode = true) : p.taken ≠ [] := by
  rcases p.makesNode_iff.1 h with hopen | ⟨d, -⟩
  · exact taken_ne_nil_of_opensBlock hopen
  · exact d.taken_ne_nil

/-- Whether a statement ends a reading does not depend on what was read before. -/
theorem addStatement_eq_none_iff (b : Builder) (p : Prelude) :
    b.addStatement p = none ↔ p.makesNode = false := by
  rw [Builder.addStatement, makesNode]
  cases hopen : p.opensBlock with
  | true => simp
  | false =>
    have hbefore := isSome_declarationOf_iff b.pending p.tokens
    rw [← isSome_declarationOf_iff ""] at hbefore
    rw [if_neg Bool.false_ne_true, Option.map_eq_none_iff, Bool.false_or,
      ← Bool.eq_iff_iff.2 hbefore, ← Option.not_isSome_iff_eq_none, Bool.not_eq_true]

/-- A statement that makes a node takes tokens. -/
theorem length_rest_lt_of_makesNode {ts : List Token} (h : (read [] ts).makesNode = true) :
    (read [] ts).rest.length < ts.length := by
  have hlen := length_taken_add_length_rest [] ts
  have hpos := List.length_pos_iff.2 (taken_ne_nil_of_makesNode h)
  omega

end Prelude

/-- The number of semicolons that stand where a node could start, up to the end of the source or to
what ends a reading before; `opened` counts the blocks around. -/
def loneSemicolons (opened : Nat) : List Token → Nat
  | [] => 0
  | t :: r =>
    match t.kind with
    | .ending => 0
    | .spacing | .comment => loneSemicolons opened r
    | .semicolon => loneSemicolons opened r + 1
    | .closeBrace => if opened = 0 then 0 else loneSemicolons (opened - 1) r
    | .atKeyword =>
      let p := Prelude.read [] (r.dropWhile Token.isSpacing)
      loneSemicolons (opened + p.opensBlock.toNat) p.rest
    | _ =>
      let p := Prelude.read [] (t :: r)
      if _h : p.makesNode then loneSemicolons (opened + p.opensBlock.toNat) p.rest else 0
termination_by ts => ts.length
decreasing_by
  · exact Nat.lt_succ_self _
  · exact Nat.lt_succ_self _
  · exact Nat.lt_succ_self _
  · exact Nat.lt_succ_of_le (Prelude.length_rest_le _ _)
  · exact Prelude.length_rest_lt_of_makesNode _h

/-- At the start of a statement that makes a node, the lone semicolons are those behind it. -/
theorem loneSemicolons_of_startsStatement {t : Token} (ht : t.kind.StartsStatement) (opened : Nat)
    (r : List Token) : loneSemicolons opened (t :: r) =
      if (Prelude.read [] (t :: r)).makesNode then
        loneSemicolons (opened + (Prelude.read [] (t :: r)).opensBlock.toNat)
          (Prelude.read [] (t :: r)).rest
      else 0 := by
  obtain ⟨h1, h2, h3, h4, h5, h6⟩ := ht
  rw [loneSemicolons]
  split <;> first | contradiction | skip
  rw [dite_eq_ite]

namespace Builder

variable {b b' : Builder} {ts ts' : List Token}

/-- A step puts a semicolon in for every lone one that it passes. -/
theorem Step.loneSemicolons (h : Step b ts b' ts') : loneSemicolons b.outer.length ts =
    (b.putIn ts).length + loneSemicolons b'.outer.length ts' := by
  cases h with
  | @space t r ht => simp [Sheet.loneSemicolons, putIn, ht, skip]
  | @semicolon t r ht => simp [Sheet.loneSemicolons, putIn, ht, skipSemicolon, Nat.add_comm]
  | @close t r f fs ht hb => simp [Sheet.loneSemicolons, putIn, ht, hb]
  | @comment t r ht => simp [Sheet.loneSemicolons, putIn, ht, add, pass]
  | @atBlock t r gap p ht hgap hp hopen =>
    subst hp
    simp [Sheet.loneSemicolons, putIn, ht, hopen, openBlock, note]
  | @atLine t r gap p ht hgap hp hopen =>
    subst hp
    simp [Sheet.loneSemicolons, putIn, ht, hopen, add, pass, note, setSemicolon]
  | @rule t r p ht hp hopen =>
    subst hp
    have hmakes := (Prelude.makesNode_iff _).2 (Or.inl hopen)
    rw [loneSemicolons_of_startsStatement ht, if_pos hmakes, b.putIn_of_ne ht.2.2.1]
    simp [hopen, openBlock, note]
  | @declaration t r p ht hp hopen d hd =>
    subst hp
    have hmakes := (Prelude.makesNode_iff _).2 (Or.inr ⟨d, hd⟩)
    rw [loneSemicolons_of_startsStatement ht, if_pos hmakes, b.putIn_of_ne ht.2.2.1]
    simp [hopen, add, pass, note, setSemicolon]

/-- At the end of a reading no lone semicolons are left. -/
theorem Ends.loneSemicolons {reading : Reading} (h : Ends b ts reading) :
    loneSemicolons b.outer.length ts = 0 := by
  cases h with
  | usedUp => rw [Sheet.loneSemicolons]
  | @ending t r ht => simp [Sheet.loneSemicolons, ht]
  | @brace t r ht hb => simp [Sheet.loneSemicolons, ht, hb]
  | @statement t r p ht hp hnone =>
    subst hp
    have hmakes := (Prelude.addStatement_eq_none_iff _ _).1 hnone
    rw [loneSemicolons_of_startsStatement ht, if_neg (by simp [hmakes])]

/-! ## The list of tokens -/

/-- What a reading makes of the tokens that are left. -/
def leaves (b : Builder) (ts : List Token) : List Token :=
  (b.run ts).tokens.drop b.seen.length

theorem Ends.tokens {reading : Reading} (h : Ends b ts reading) :
    reading.tokens = b.seen.reverse ++ ts := by
  cases h with
  | usedUp | ending | brace => rfl
  | statement ht hp hnone =>
    subst hp
    simp [fail, pass, note, Prelude.taken_append_rest]

/-- A reading keeps the tokens that it has read. -/
theorem tokens_run (b : Builder) (ts : List Token) :
    (b.run ts).tokens = b.seen.reverse ++ b.leaves ts := by
  have hprefix : b.seen.reverse <+: (b.run ts).tokens := by
    refine reading_induction (P := fun b ts => b.seen.reverse <+: (b.run ts).tokens) ?_ ?_ b ts
    · exact fun hends => ⟨_, hends.tokens.symm⟩
    · intro b ts b' ts' hstep ih
      obtain ⟨taken, -, -, -, hseen⟩ := hstep.exists_taken
      rw [hseen, List.reverse_append] at ih
      rw [hstep.run_eq]
      exact (List.prefix_append _ _).trans ih
  rw [leaves, ← List.length_reverse]
  exact List.prefix_append_drop hprefix

/-- Where a reading ends, it leaves the tokens as they are. -/
theorem Ends.leaves (h : Ends b ts (b.run ts)) : b.leaves ts = ts :=
  List.append_cancel_left ((b.tokens_run ts).symm.trans h.tokens)

/-- A step puts in white space behind a semicolon that ends nothing, and changes nothing else. -/
theorem Step.leaves (h : Step b ts b' ts') :
    ∃ taken, taken ≠ [] ∧ ts = taken ++ ts' ∧
      b.leaves ts = taken ++ (b.putIn ts ++ b'.leaves ts') := by
  obtain ⟨taken, hne, htokens, -, hseen⟩ := h.exists_taken
  refine ⟨taken, hne, htokens, (List.append_right_inj b.seen.reverse).1 ?_⟩
  rw [← tokens_run, h.run_eq, tokens_run, hseen, List.reverse_append, List.reverse_reverse]
  simp only [List.append_assoc]

/-- A reading does not change the first token. -/
theorem head?_leaves (b : Builder) (ts : List Token) : (b.leaves ts).head? = ts.head? := by
  obtain ⟨b', ts', h⟩ | h := b.exists_step_or_ends ts
  · obtain ⟨taken, hne, htokens, hleaves⟩ := h.leaves
    rw [hleaves, htokens, List.head?_append_of_ne_nil _ hne, List.head?_append_of_ne_nil _ hne]
  · rw [h.leaves]

/-- A reading takes no tokens away. -/
theorem sublist_leaves (b : Builder) (ts : List Token) : ts.Sublist (b.leaves ts) := by
  refine reading_induction (P := fun b ts => ts.Sublist (b.leaves ts)) ?_ ?_ b ts
  · intro b ts hends
    rw [hends.leaves]
  · intro b ts b' ts' hstep ih
    obtain ⟨taken, -, htokens, hleaves⟩ := hstep.leaves
    rw [hleaves, htokens]
    exact (List.Sublist.refl taken).append (ih.trans (List.sublist_append_right _ _))

/-- One token is put in for each semicolon that ends nothing. -/
theorem length_leaves (b : Builder) (ts : List Token) :
    (b.leaves ts).length = ts.length + loneSemicolons b.outer.length ts := by
  refine reading_induction
    (P := fun b ts => (b.leaves ts).length = ts.length + loneSemicolons b.outer.length ts)
    ?_ ?_ b ts
  · intro b ts hends
    rw [hends.leaves, hends.loneSemicolons, Nat.add_zero]
  · intro b ts b' ts' hstep ih
    obtain ⟨taken, -, htokens, hleaves⟩ := hstep.leaves
    rw [hstep.loneSemicolons, hleaves, htokens]
    simp only [List.length_append]
    rw [← htokens, ih]
    omega

end Builder

namespace Reading

theorem tokens_ofTokens (tokens : List Token) (file : Option String) :
    (ofTokens tokens file).tokens = (Builder.start file).leaves tokens := rfl

/-- A reading leaves the list that it was given as it was exactly if none of its semicolons stands
where a node could start. -/
theorem tokens_eq_iff (tokens : List Token) (file : Option String) :
    (ofTokens tokens file).tokens = tokens ↔ loneSemicolons 0 tokens = 0 := by
  have hlength := (Builder.start file).length_leaves tokens
  rw [← tokens_ofTokens] at hlength
  constructor
  · intro heq
    rw [heq] at hlength
    exact Nat.left_eq_add.1 hlength
  · intro hnone
    rw [Builder.start, List.length_nil, hnone, Nat.add_zero] at hlength
    exact (((Builder.start file).sublist_leaves tokens).eq_of_length hlength.symm).symm

end Reading

end PixelUnit.Sheet
