import PixelUnit.Proofs.Sheet.Steps
import PixelUnit.Proofs.Sheet.Trees

/-!
# More white space

A tree is widened if the texts in front of its nodes and at the ends of its containers get longer in
front, and nothing else changes (`Tree.Widened`). The texts that are added are counted, so that the
tree is the same, and is written in the same way, exactly if they are empty (`Tree.Widened.eq_iff`,
`Tree.Widened.text_eq_iff`).

While a tree is read, its open containers are widened in the same way (`Frame.Widened`).
-/

namespace PixelUnit.Sheet

/-- The text `s'` is `s` with `n` more characters in front. -/
def Lengthened (n : Nat) (s s' : String) : Prop :=
  ∃ added : String, s' = added ++ s ∧ added.length = n

namespace Lengthened

variable {n : Nat} {s s' : String}

theorem refl (s : String) : Lengthened 0 s s :=
  ⟨"", String.empty_append.symm, rfl⟩

theorem append (h : Lengthened n s s') (u : String) : Lengthened n (s ++ u) (s' ++ u) := by
  obtain ⟨added, rfl, hadded⟩ := h
  exact ⟨added, String.append_assoc, hadded⟩

theorem length_eq (h : Lengthened n s s') : s'.length = s.length + n := by
  obtain ⟨added, rfl, rfl⟩ := h
  rw [String.length_append, Nat.add_comm]

theorem eq_of_zero (h : Lengthened 0 s s') : s' = s := by
  obtain ⟨added, rfl, hadded⟩ := h
  rw [String.length_eq_zero_iff.1 hadded, String.empty_append]

end Lengthened

namespace Tree

mutual

/-- The second tree is the first with `n` more characters in front of nodes and at the ends of
containers. -/
inductive Widened : Nat → Tree → Tree → Prop
  | root (file : Option String) (raws : Raws) {n k : Nat} {after after' : String}
      {ts ts' : List Tree} (hafter : Lengthened n after after') (hts : WidenedAll k ts ts') :
      Widened (k + n) (.node (.root file) { raws with after := some after } ts)
        (.node (.root file) { raws with after := some after' } ts')
  | block (content : Content) (raws : Raws) {n m k : Nat} {before before' after after' : String}
      {ts ts' : List Tree} (hshows : showsChildren content = true)
      (hroot : ∀ file, content ≠ .root file) (hbefore : Lengthened m before before')
      (hafter : Lengthened n after after') (hts : WidenedAll k ts ts') :
      Widened (m + k + n)
        (.node content { raws with before := some before, after := some after } ts)
        (.node content { raws with before := some before', after := some after' } ts')
  | leaf (content : Content) (raws : Raws) {n : Nat} {before before' : String}
      (hleaf : showsChildren content = false) (hbefore : Lengthened n before before') :
      Widened n (.node content { raws with before := some before } [])
        (.node content { raws with before := some before' } [])

/-- Siblings with more characters in front of nodes and at the ends of containers. -/
inductive WidenedAll : Nat → List Tree → List Tree → Prop
  | nil : WidenedAll 0 [] []
  | cons {n m : Nat} {t t' : Tree} {ts ts' : List Tree} (ht : Widened n t t')
      (hts : WidenedAll m ts ts') : WidenedAll (n + m) (t :: ts) (t' :: ts')

end

theorem Widened.isComment_eq {n : Nat} {t t' : Tree} (h : Widened n t t') :
    t'.isComment = t.isComment := by
  cases h <;> rfl

/-- A child more adds its white space to that of the others. -/
theorem WidenedAll.concat {m : Nat} {t t' : Tree} (ht : Widened m t t') {k : Nat}
    {ts ts' : List Tree} (hts : WidenedAll k ts ts') :
    WidenedAll (k + m) (ts ++ [t]) (ts' ++ [t']) := by
  induction ts generalizing k ts' with
  | nil =>
    cases hts
    exact Nat.add_comm m 0 ▸ .cons ht .nil
  | cons u ts ih =>
    cases hts with
    | cons hu hts => exact Nat.add_assoc _ _ m ▸ .cons hu (ih hts)

/-! ## The same tree -/

mutual

/-- A tree with no more white space is the same. -/
theorem Widened.eq_of_zero : ∀ {n : Nat} {t t' : Tree}, Widened n t t' → n = 0 → t' = t
  | _, _, _, .root _ _ hafter hts, hzero => by
    obtain ⟨rfl, rfl⟩ := Nat.add_eq_zero_iff.1 hzero
    rw [hafter.eq_of_zero, hts.eq_of_zero rfl]
  | _, _, _, .block _ _ _ _ hbefore hafter hts, hzero => by
    obtain ⟨hfront, rfl⟩ := Nat.add_eq_zero_iff.1 hzero
    obtain ⟨rfl, rfl⟩ := Nat.add_eq_zero_iff.1 hfront
    rw [hbefore.eq_of_zero, hafter.eq_of_zero, hts.eq_of_zero rfl]
  | _, _, _, .leaf _ _ _ hbefore, hzero => by
    subst hzero
    rw [hbefore.eq_of_zero]

theorem WidenedAll.eq_of_zero : ∀ {n : Nat} {ts ts' : List Tree}, WidenedAll n ts ts' → n = 0 →
    ts' = ts
  | _, _, _, .nil, _ => rfl
  | _, _, _, .cons ht hts, hzero => by
    obtain ⟨rfl, rfl⟩ := Nat.add_eq_zero_iff.1 hzero
    rw [ht.eq_of_zero rfl, hts.eq_of_zero rfl]

end

theorem WidenedAll.any_isComment {n : Nat} {ts ts' : List Tree} (h : WidenedAll n ts ts') :
    ts'.any (!·.isComment) = ts.any (!·.isComment) := by
  induction ts generalizing n ts' with
  | nil =>
    cases h
    rfl
  | cons t ts ih =>
    cases h with
    | cons ht hts => rw [List.any_cons, List.any_cons, ih hts, ht.isComment_eq]

mutual

/-- The text of a widened tree is longer by the white space. -/
theorem Widened.length_text (semicolon : Bool) : ∀ {n : Nat} {t t' : Tree}, Widened n t t' →
    (t'.text semicolon).length = (t.text semicolon).length + n
  | _, _, _, .root _ raws hafter hts => by
    have hlength := hts.length_texts (raws.semicolon == some true)
    have hend := hafter.length_eq
    simp only [text, Option.getD_some, String.length_append]
    omega
  | _, _, _, .block content raws hshows hroot hbefore hafter hts => by
    have hlength := hts.length_texts (raws.semicolon == some true)
    have hfront := hbefore.length_eq
    have hend := hafter.length_eq
    cases content with
    | root file => exact absurd rfl (hroot file)
    | rule selector =>
      simp only [text, blockText, Option.getD_some, String.length_append]
      omega
    | atRule name params body =>
      cases body with
      | true =>
        simp only [text, atRuleHead, blockText, Option.getD_some, String.length_append]
        omega
      | false => cases hshows
    | declaration | comment => cases hshows
  | _, _, _, .leaf content _ hleaf hbefore => by
    have hfront := hbefore.length_eq
    cases content with
    | root | rule => cases hleaf
    | atRule name params body =>
      cases body with
      | true => cases hleaf
      | false =>
        simp only [text, atRuleHead, Option.getD_some, String.length_append]
        omega
    | declaration prop value important =>
      simp only [text, declarationText, Option.getD_some, String.length_append]
      omega
    | comment words =>
      simp only [text, commentText, Option.getD_some, String.length_append]
      omega

/-- The texts of widened trees are longer by the white space. -/
theorem WidenedAll.length_texts (semicolon : Bool) : ∀ {n : Nat} {ts ts' : List Tree},
    WidenedAll n ts ts' → (texts semicolon ts').length = (texts semicolon ts).length + n
  | _, _, _, .nil => rfl
  | _, _ :: ts, _ :: _, .cons ht hts => by
    have hhead := ht.length_text (semicolon || ts.any (!·.isComment))
    have htail := hts.length_texts semicolon
    rw [texts, texts, hts.any_isComment, String.length_append, String.length_append]
    omega

end

variable {n : Nat} {t t' : Tree}

/-- A widened tree is written in the same way only if nothing was added. -/
theorem Widened.text_eq_iff (h : Widened n t t') (semicolon : Bool) :
    t'.text semicolon = t.text semicolon ↔ n = 0 := by
  constructor
  · intro htext
    have hlength := h.length_text semicolon
    rw [htext] at hlength
    exact Nat.left_eq_add.1 hlength
  · intro hzero
    rw [h.eq_of_zero hzero]

theorem Widened.eq_iff (h : Widened n t t') : t' = t ↔ n = 0 :=
  ⟨fun heq => (h.text_eq_iff false).1 (congrArg (text false) heq), h.eq_of_zero⟩

end Tree

/-! ## Open containers -/

namespace Frame

/-- A container that is being read, with `n` more characters in front of it and of the nodes in it,
and at their ends. -/
inductive Widened : Nat → Frame → Frame → Prop
  | root (file : Option String) (raws : Raws) {n : Nat} {ts ts' : List Tree}
      (hts : Tree.WidenedAll n ts.reverse ts'.reverse) :
      Widened n ⟨.root file, raws, ts⟩ ⟨.root file, raws, ts'⟩
  | block (content : Content) (raws : Raws) {n m : Nat} {before before' : String}
      {ts ts' : List Tree} (hshows : Tree.showsChildren content = true)
      (hroot : ∀ file, content ≠ .root file) (hbefore : Lengthened m before before')
      (hts : Tree.WidenedAll n ts.reverse ts'.reverse) :
      Widened (m + n) ⟨content, { raws with before := some before }, ts⟩
        ⟨content, { raws with before := some before' }, ts'⟩

variable {n m : Nat} {f f' : Frame}

/-- A child more adds its white space to that of its container. -/
theorem Widened.add (h : Widened n f f') {t t' : Tree} (ht : t.Widened m t') :
    Widened (n + m) (f.add t) (f'.add t') := by
  cases h with
  | root file raws hts =>
    refine .root file raws ?_
    rw [List.reverse_cons, List.reverse_cons]
    exact hts.concat ht
  | block content raws hshows hroot hbefore hts =>
    refine Nat.add_assoc _ _ m ▸ .block content raws hshows hroot hbefore ?_
    rw [List.reverse_cons, List.reverse_cons]
    exact hts.concat ht

theorem Widened.setSemicolon (h : Widened n f f') (semicolon : Bool) :
    Widened n (f.setSemicolon semicolon) (f'.setSemicolon semicolon) := by
  cases h with
  | root file raws hts => exact .root file { raws with semicolon := some semicolon } hts
  | block content raws hshows hroot hbefore hts =>
    exact .block content { raws with semicolon := some semicolon } hshows hroot hbefore hts

theorem Widened.close (h : Widened n f f') {after after' : String}
    (hafter : Lengthened m after after') :
    (f.close after).Widened (n + m) (f'.close after') := by
  cases h with
  | root file raws hts => exact .root file raws hafter hts
  | block content raws hshows hroot hbefore hts =>
    exact .block content raws hshows hroot hbefore hafter hts

/-- Open containers with `n` more characters in front of nodes and at the ends of containers. -/
inductive WidenedAll : Nat → List Frame → List Frame → Prop
  | nil : WidenedAll 0 [] []
  | cons {n m : Nat} {f f' : Frame} {fs fs' : List Frame} (hf : f.Widened n f')
      (hfs : WidenedAll m fs fs') : WidenedAll (n + m) (f :: fs) (f' :: fs')

theorem WidenedAll.length_eq {fs fs' : List Frame} (h : WidenedAll n fs fs') :
    fs'.length = fs.length := by
  induction h with
  | nil => rfl
  | cons _ _ ih => exact congrArg (· + 1) ih

end Frame

namespace Builder

/-- Open containers are closed with the text that is left. -/
theorem widened_closeAll {k j m : Nat} {f f' : Frame} {fs fs' : List Frame} {after after' : String}
    (hf : f.Widened k f') (hfs : Frame.WidenedAll j fs fs') (hafter : Lengthened m after after') :
    (closeAll f after fs).Widened (k + j + m) (closeAll f' after' fs') := by
  induction fs generalizing k j m f f' fs' after after' with
  | nil =>
    cases hfs
    exact hf.close hafter
  | cons g gs ih =>
    cases hfs with
    | @cons i j _ _ _ _ hg hgs =>
      have hsum : k + (i + j) + m = i + (k + m) + j + 0 := by omega
      rw [hsum, closeAll, closeAll]
      exact ih (hg.add (hf.close hafter)) hgs (.refl "")

end Builder

end PixelUnit.Sheet
