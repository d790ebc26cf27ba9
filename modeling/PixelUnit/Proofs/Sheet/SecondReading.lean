import PixelUnit.Proofs.Sheet.LoneSemicolons
import PixelUnit.Proofs.Sheet.Widening

/-!
# The same tokens, read twice

A reading puts white space into the list of tokens that it is given. So a second reading of the list
has more to read, but it follows the first one step by step (`Builder.Step.follow`): what was put in
is white space behind a semicolon that ends nothing, and comes before the next node or the end of
its container. It notes the same faults and ends in the same fault or in the same tree, but for the
white space that was put in (`Builder.repeats_run`).
-/

namespace PixelUnit.Sheet

namespace Prelude

theorem taken_cons (t : Token) (p : Prelude) : (p.cons t).taken = t :: p.taken := rfl

/-- A statement is read again before other tokens, if they start as those did that were behind
it. -/
theorem read_taken_append {awaited : List Token.Kind} {ts rest' : List Token}
    (h : rest'.head? = (read awaited ts).rest.head?) :
    read awaited ((read awaited ts).taken ++ rest') = { read awaited ts with rest := rest' } := by
  fun_induction read awaited ts with
  | case1 awaited =>
    obtain rfl := List.head?_eq_none_iff.1 h
    rfl
  | case2 awaited t r ht =>
    obtain ⟨r', rfl⟩ := List.head?_eq_some_iff.1 h
    simp [taken, read, ht]
  | case3 awaited t r h1 h2 ih =>
    rw [taken_cons, List.cons_append, read, if_neg h1, if_pos h2, ih h]
    rfl
  | case4 awaited t r h1 h2 h3 ih =>
    rw [taken_cons, List.cons_append, read, if_neg h1, if_neg h2, if_pos h3, ih h]
    rfl
  | case5 awaited t r h1 h2 h3 h4 ih =>
    rw [taken_cons, List.cons_append, read, if_neg h1, if_neg h2, if_neg h3, if_pos h4, ih h]
    rfl
  | case6 awaited t r h1 h2 h3 h4 h5 => simp_all [taken, read]
  | case7 awaited t r h1 h2 h3 h4 h5 h6 =>
    obtain ⟨r', rfl⟩ := List.head?_eq_some_iff.1 h
    simp_all [taken, read]
  | case8 awaited t r h1 h2 h3 h4 h5 h6 ih =>
    rw [taken_cons, List.cons_append, read, if_neg h1, if_neg h2, if_neg h3, if_neg h4, if_neg h5,
      if_neg h6, ih h]
    rfl

/-- A statement is read in the same way behind what the reading has left of it. -/
theorem exists_read_append {t : Token} {r rest' : List Token}
    (h : rest'.head? = (read [] (t :: r)).rest.head?) :
    ∃ r', (read [] (t :: r)).taken ++ rest' = t :: r' ∧
      read [] (t :: r') = { read [] (t :: r) with rest := rest' } := by
  have hfront : ((read [] (t :: r)).taken ++ rest').head? = some t := by
    rw [List.head?_append, h, ← List.head?_append, taken_append_rest, List.head?_cons]
  obtain ⟨r', hr'⟩ := List.head?_eq_some_iff.1 hfront
  exact ⟨r', hr', hr' ▸ read_taken_append h⟩

/-- The white space behind an at-keyword and the statement behind it are read again before other
tokens, if they start as those did that were behind them. -/
theorem read_gap_append {r r' rest' : List Token}
    (h : rest'.head? = (read [] (r.dropWhile Token.isSpacing)).rest.head?)
    (hr' : r' = r.takeWhile Token.isSpacing ++
      ((read [] (r.dropWhile Token.isSpacing)).taken ++ rest')) :
    r'.takeWhile Token.isSpacing = r.takeWhile Token.isSpacing ∧
      read [] (r'.dropWhile Token.isSpacing) =
        { read [] (r.dropWhile Token.isSpacing) with rest := rest' } := by
  have hrun : ∀ t ∈ r.takeWhile Token.isSpacing, t.isSpacing = true := fun _ =>
    List.mem_takeWhile_imp
  have hstop : ∀ t ∈ ((read [] (r.dropWhile Token.isSpacing)).taken ++ rest').head?,
      t.isSpacing = false := by
    intro t ht
    rw [List.head?_append, h, ← List.head?_append, taken_append_rest] at ht
    exact Text.eq_false_of_mem_head?_dropWhile ht
  rw [hr', Text.takeWhile_run hrun hstop, Text.dropWhile_run hrun hstop]
  exact ⟨rfl, read_taken_append h⟩

end Prelude

namespace Builder

variable {n : Nat} {b b' c : Builder} {ts ts' : List Token}

/-- Two readings have come equally far, with the same faults; the second one has `n` more characters
of white space. -/
inductive Widened : Nat → Builder → Builder → Prop
  | mk {b c : Builder} {k j m : Nat} (hframe : b.frame.Widened k c.frame)
      (houter : Frame.WidenedAll j b.outer c.outer) (hpending : Lengthened m b.pending c.pending)
      (hfaults : c.faults = b.faults) : Widened (k + j + m) b c

namespace Widened

theorem skip (h : Widened n b c) (t : Token) : Widened n (b.skip t) (c.skip t) := by
  cases h with
  | mk hframe houter hpending hfaults =>
    exact .mk hframe houter (hpending.append t.raw) hfaults

/-- The second reading passes the white space that the first one puts in. -/
theorem skipSemicolon (h : Widened n b c) (t : Token) :
    Widened (n + (b.repeated t).raw.length) (b.skipSemicolon t)
      ((c.skipSemicolon t).skip (b.repeated t)) := by
  cases h with
  | mk hframe houter hpending hfaults =>
    obtain ⟨added, hadded, rfl⟩ := hpending
    rw [Nat.add_assoc]
    refine .mk hframe houter ⟨added ++ (b.repeated t).raw, ?_, String.length_append _ _⟩ hfaults
    simp only [Builder.skip, Builder.skipSemicolon, repeated, hadded, String.append_assoc]

theorem note (h : Widened n b c) (fault : Option Fault) :
    Widened n (b.note fault) (c.note fault) := by
  cases h with
  | mk hframe houter hpending hfaults =>
    exact .mk hframe houter hpending (congrArg (· ++ fault.toList) hfaults)

theorem setSemicolon (h : Widened n b c) (semicolon : Bool) :
    Widened n (b.setSemicolon semicolon) (c.setSemicolon semicolon) := by
  cases h with
  | mk hframe houter hpending hfaults =>
    exact .mk (hframe.setSemicolon semicolon) houter hpending hfaults

/-- A node that has the text since the last node in front of it. -/
theorem add (h : Widened n b c) (taken taken' : List Token) {t t' : Tree}
    (ht : ∀ m, Lengthened m b.pending c.pending → t.Widened m t') :
    Widened n (b.add taken t) (c.add taken' t') := by
  cases h with
  | @mk _ _ k j m hframe houter hpending hfaults =>
    have hsum : k + j + m = k + m + j + 0 := by omega
    rw [hsum]
    exact .mk (hframe.add (ht m hpending)) houter (.refl "") hfaults

/-- Widened readings open a block alike. -/
theorem openBlock (h : Widened n b c) (taken taken' : List Token) {content : Content} (raws : Raws)
    (hshows : Tree.showsChildren content = true) (hroot : ∀ file, content ≠ .root file) :
    Widened n (b.openBlock taken content { raws with before := some b.pending })
      (c.openBlock taken' content { raws with before := some c.pending }) := by
  cases h with
  | @mk _ _ k j m hframe houter hpending hfaults =>
    have hsum : k + j + m = m + 0 + (k + j) + 0 := by omega
    rw [hsum]
    exact .mk (.block content raws hshows hroot hpending .nil) (.cons hframe houter) (.refl "")
      hfaults

/-- Widened readings close a block alike, with the white space of both parts. -/
theorem close (h : Widened n b c) (t : Token) {f : Frame} {fs : List Frame}
    (hb : b.outer = f :: fs) : ∃ f' fs', c.outer = f' :: fs' ∧
      Widened n { b.pass [t] with frame := f.add (b.frame.close b.pending), outer := fs }
        { c.pass [t] with frame := f'.add (c.frame.close c.pending), outer := fs' } := by
  cases h with
  | @mk _ _ k j m hframe houter hpending hfaults =>
    rw [hb] at houter
    generalize hc : c.outer = outer at houter
    cases houter with
    | @cons i j f f' fs fs' hf hfs =>
      refine ⟨f', fs', rfl, ?_⟩
      have hsum : k + (i + j) + m = i + (k + m) + j + 0 := by omega
      rw [hsum]
      exact .mk (hf.add (hframe.close hpending)) hfs (.refl "") hfaults

end Widened

/-! ## Steps -/

/-- A second reading follows a step with the same step if nothing was put in. -/
theorem exists_follow {c' : Builder} {taken rest' : List Token} (hput : b.putIn ts = [])
    (hc' : Widened n b' c') (hstep : Step c (taken ++ rest') c' rest') :
    ∃ c', Widened (n + (rawText (b.putIn ts)).length) b' c' ∧
      c.run (taken ++ (b.putIn ts ++ rest')) = c'.run rest' := by
  rw [hput]
  exact ⟨c', hc', hstep.run_eq⟩

/-- A statement that starts with its first token is followed by itself. -/
theorem exists_follow_statement {c' : Builder} {t : Token} {r taken rest' : List Token}
    (ht : t.kind.StartsStatement)
    (htaken : t :: r = taken ++ (Prelude.read [] (t :: r)).rest)
    (hhead : rest'.head? = (Prelude.read [] (t :: r)).rest.head?) (hc' : Widened n b' c')
    (hstep : ∀ r', { Prelude.read [] (t :: r) with rest := rest' } = Prelude.read [] (t :: r') →
      Step c (t :: r') c' rest') :
    ∃ c', Widened (n + (rawText (b.putIn (t :: r))).length) b' c' ∧
      c.run (taken ++ (b.putIn (t :: r) ++ rest')) = c'.run rest' := by
  obtain rfl := List.append_cancel_right ((Prelude.taken_append_rest [] _).trans htaken)
  obtain ⟨r', hr', hread⟩ := Prelude.exists_read_append hhead
  have hnew := hstep r' hread.symm
  rw [← hr'] at hnew
  exact exists_follow (b.putIn_of_ne ht.2.2.1 _) hc' hnew

/-- A second reading follows a step: it takes the same tokens, and those that were put in. -/
theorem Step.follow (h : Step b ts b' ts') (hc : Widened n b c) {taken rest' : List Token}
    (htaken : ts = taken ++ ts') (hhead : rest'.head? = ts'.head?) :
    ∃ c', Widened (n + (rawText (b.putIn ts)).length) b' c' ∧
      c.run (taken ++ (b.putIn ts ++ rest')) = c'.run rest' := by
  cases h with
  | @space t _ ht =>
    obtain rfl := List.append_cancel_right (show [t] ++ ts' = taken ++ ts' from htaken)
    exact exists_follow (b.putIn_of_ne (by simp [ht]) _) (hc.skip t) (.space ht)
  | @semicolon t _ ht =>
    obtain rfl := List.append_cancel_right (show [t] ++ ts' = taken ++ ts' from htaken)
    have hput : b.putIn (t :: ts') = [b.repeated t] := by simp [putIn, ht]
    -- A semicolon that ends nothing is the one place where tokens are put in: the second reading
    -- takes two steps here.
    refine ⟨(c.skipSemicolon t).skip (b.repeated t), ?_, ?_⟩
    · rw [hput, rawText_cons, rawText_nil, String.append_empty]
      exact hc.skipSemicolon t
    · rw [hput]
      exact (run_of_semicolon ht).trans (run_of_spacing rfl)
  | @close t _ f fs ht hb =>
    obtain rfl := List.append_cancel_right (show [t] ++ ts' = taken ++ ts' from htaken)
    obtain ⟨f', fs', houter, hclosed⟩ := hc.close t hb
    exact exists_follow (b.putIn_of_ne (by simp [ht]) _) hclosed (.close ht houter)
  | @comment t _ ht =>
    obtain rfl := List.append_cancel_right (show [t] ++ ts' = taken ++ ts' from htaken)
    exact exists_follow (b.putIn_of_ne (by simp [ht]) _)
      (hc.add [t] [t] fun _ hpending => .leaf _ (commentNode b.pending t).raws rfl hpending)
      (.comment ht)
  -- An at-keyword is read with the white space behind it and the statement behind that, all of
  -- which stand in front of the rest again.
  | @atBlock t r gap p ht hgap hp hopen =>
    subst hgap hp
    obtain rfl := List.append_cancel_right ((exists_taken_atRule ht r).1.symm.trans htaken)
    obtain ⟨hgap, hread⟩ := Prelude.read_gap_append hhead (List.append_assoc _ _ _)
    exact exists_follow (b.putIn_of_ne (by simp [ht]) _)
      ((hc.note _).openBlock _ _ (atRuleRaws b.pending _ _) rfl (by simp))
      (.atBlock ht hgap.symm hread.symm hopen)
  | @atLine t r gap p ht hgap hp hopen =>
    subst hgap hp
    obtain rfl := List.append_cancel_right ((exists_taken_atRule ht r).1.symm.trans htaken)
    obtain ⟨hgap, hread⟩ := Prelude.read_gap_append hhead (List.append_assoc _ _ _)
    exact exists_follow (b.putIn_of_ne (by simp [ht]) _)
      (((hc.note _).setSemicolon _).add _ _ fun _ hpending =>
        .leaf _ (atRuleRaws b.pending _ _) rfl hpending)
      (.atLine ht hgap.symm hread.symm hopen)
  | @rule t r p ht hp hopen =>
    subst hp
    exact exists_follow_statement ht htaken hhead
      ((hc.note _).openBlock _ _ (ruleRaws b.pending _) rfl (by simp))
      fun r' hread => .rule ht hread hopen
  | @declaration t r p ht hp hopen d hd =>
    subst hp
    exact exists_follow_statement ht htaken hhead
      (((hc.note _).setSemicolon _).add _ _ fun _ hpending =>
        .leaf _ (d.raws b.pending) rfl hpending)
      fun r' hread => .declaration ht hread hopen d hd

end Builder

/-! ## Ends -/

/-- A second reading notes the same faults as the first one, and ends in the same fault or in the
same tree but for `n` more characters of white space. -/
structure Reading.Repeats (n : Nat) (first second : Reading) : Prop where
  faults : second.faults = first.faults
  error : ∀ fault, first.result = .error fault → second.result = .error fault
  tree : ∀ tree, first.result = .ok tree → ∃ tree', second.result = .ok tree' ∧
    tree.Widened n tree'

namespace Builder

variable {n : Nat} {b c : Builder} {ts : List Token}

theorem Widened.length_outer (h : Widened n b c) : c.outer.length = b.outer.length := by
  cases h with
  | mk _ houter => exact houter.length_eq

theorem Widened.faults_eq (h : Widened n b c) : c.faults = b.faults := by
  cases h with
  | mk _ _ _ hfaults => exact hfaults

/-- Widened readings repeat each other at the end of the source. -/
theorem Widened.finish (h : Widened n b c) (pos : Position) (rest rest' : List Token) :
    (b.finish pos rest).Repeats n (c.finish pos rest') := by
  have hblocks := h.length_outer
  cases h with
  | mk hframe houter hpending hfaults =>
    refine ⟨?_, fun _ hfault => (by cases hfault), fun tree htree => ?_⟩
    · simp only [Builder.finish, hfaults, List.map_const', hblocks]
    · cases htree
      exact ⟨_, rfl, widened_closeAll hframe houter hpending⟩

theorem repeats_fail (hfaults : c.faults = b.faults) (fault : Fault) (rest rest' : List Token) :
    (b.fail fault rest).Repeats n (c.fail fault rest') :=
  ⟨hfaults, fun _ hfault => hfault, fun _ htree => (by cases htree)⟩

/-- A second reading ends where the first one does. -/
theorem Ends.repeats {reading : Reading} (h : Ends b ts reading) (hc : Widened n b c) :
    reading.Repeats n (c.run ts) := by
  cases h with
  | usedUp =>
    rw [run]
    exact hc.finish _ _ _
  | ending ht =>
    rw [run_of_ending ht]
    exact hc.finish _ _ _
  | @brace t r ht hb =>
    have houter : c.outer = [] := by
      rw [← List.length_eq_zero_iff, hc.length_outer, hb, List.length_nil]
    have hclose : c.closeBlock t = none := by rw [closeBlock, houter]
    rw [run_of_closeBrace ht, hclose]
    exact repeats_fail hc.faults_eq _ _ _
  | statement ht hp hnone =>
    subst hp
    rw [Prelude.addStatement_eq_none_iff] at hnone
    rw [run_of_startsStatement ht, (Prelude.addStatement_eq_none_iff _ _).2 hnone]
    refine repeats_fail ?_ _ _ _
    exact (hc.note _).faults_eq

/-- A second reading of the tokens that a reading leaves repeats it, but for the white space that
was put in. -/
theorem repeats_run (b : Builder) (ts : List Token) : ∀ {n : Nat} {c : Builder}, Widened n b c →
    ∃ m, (rawText (b.leaves ts)).length = (rawText ts).length + m ∧
      (b.run ts).Repeats (n + m) (c.run (b.leaves ts)) := by
  refine reading_induction (P := fun b ts => ∀ {n : Nat} {c : Builder}, Widened n b c →
    ∃ m, (rawText (b.leaves ts)).length = (rawText ts).length + m ∧
      (b.run ts).Repeats (n + m) (c.run (b.leaves ts))) ?_ ?_ b ts
  · intro b ts hends n c hc
    rw [hends.leaves]
    exact ⟨0, rfl, hends.repeats hc⟩
  · intro b ts b' ts' hstep ih n c hc
    obtain ⟨taken, -, htaken, hleaves⟩ := hstep.leaves
    obtain ⟨c', hc', hrun⟩ := hstep.follow hc htaken (b'.head?_leaves ts')
    obtain ⟨m, hm, hrepeats⟩ := ih hc'
    refine ⟨(rawText (b.putIn ts)).length + m, ?_, ?_⟩
    · have hlength : (rawText ts).length = (rawText taken).length + (rawText ts').length := by
        rw [htaken, rawText_append, String.length_append]
      rw [hleaves, rawText_append, rawText_append, String.length_append, String.length_append, hm,
        hlength]
      omega
    · rw [hleaves, hrun, hstep.run_eq, ← Nat.add_assoc]
      exact hrepeats

end Builder

/-! ## The list of tokens -/

namespace Reading

/-- The reading of the list of tokens that a reading has left. -/
def again (tokens : List Token) (file : Option String) : Reading :=
  ofTokens (ofTokens tokens file).tokens file

/-- The list of tokens is as it was, and so a second reading of it gives an equal tree, whose text
is the same, or the same fault, and notes the same faults. -/
structure LeavesAlone (tokens : List Token) (file : Option String) : Prop where
  list : (ofTokens tokens file).tokens = tokens
  result : (again tokens file).result = (ofTokens tokens file).result
  faults : (again tokens file).faults = (ofTokens tokens file).faults

/-- A reading leaves its list of tokens alone exactly if no semicolon stands where a node could
start. If one does, a second reading of the list still notes the same faults, and ends in the same
fault or in the same tree but for more white space: as many characters as were put into the list.
The tree is equal, and has the same text, exactly if these are none. -/
theorem leavesAlone_iff (tokens : List Token) (file : Option String) :
    (LeavesAlone tokens file ↔ loneSemicolons 0 tokens = 0) ∧
    ∃ n, (rawText (ofTokens tokens file).tokens).length = (rawText tokens).length + n ∧
      (ofTokens tokens file).Repeats n (again tokens file) ∧
      ∀ tree tree', (ofTokens tokens file).result = .ok tree →
        (again tokens file).result = .ok tree' →
          (tree' = tree ↔ n = 0) ∧ (tree'.text false = tree.text false ↔ n = 0) := by
  constructor
  · refine ⟨fun h => (tokens_eq_iff tokens file).1 h.list, fun hnone => ?_⟩
    have hlist := (tokens_eq_iff tokens file).2 hnone
    have hagain : again tokens file = ofTokens tokens file := congrArg (ofTokens · file) hlist
    exact ⟨hlist, congrArg result hagain, congrArg faults hagain⟩
  · have hstart : Builder.Widened (0 + 0 + 0) (.start file) (.start file) :=
      .mk (.root file {} .nil) .nil (.refl "") rfl
    obtain ⟨n, hn, hrepeats⟩ := Builder.repeats_run (.start file) tokens hstart
    rw [Nat.zero_add] at hrepeats
    refine ⟨n, hn, hrepeats, fun tree tree' hfirst hsecond => ?_⟩
    obtain ⟨tree'', hagain, hwidened⟩ := hrepeats.tree tree hfirst
    obtain rfl := Except.ok.inj (hagain.symm.trans hsecond)
    exact ⟨hwidened.eq_iff, hwidened.text_eq_iff false⟩

/-- A semicolon alone is read as white space, and read again as more of it. -/
theorem not_leavesAlone_loneSemicolon : ¬LeavesAlone [⟨.semicolon, ";", ⟨1, 1⟩⟩] none := by
  intro h
  have hnone := (tokens_eq_iff _ _).1 h.list
  simp [loneSemicolons] at hnone

example : (again [⟨.semicolon, ";", ⟨1, 1⟩⟩] none).result.map (Tree.text false) = .ok ";;" := by
  cbv

end Reading

end PixelUnit.Sheet
