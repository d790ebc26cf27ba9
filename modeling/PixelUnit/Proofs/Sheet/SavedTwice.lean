import PixelUnit.Proofs.Sheet.BraceBehind
import PixelUnit.Proofs.Sheet.LostFeed

/-!
# Sheets that are saved twice

A sheet is written back with a closing brace for each block without an end, and what is written is
read again (`SourceReading.text_again`). If the first brace closes a block, all others do
(`Reaches.append_closers_of_between`), and the second text is the first. But a brace that the last
token takes (`ReadsBrace`), or that stands in an open bracket, closes none, so that there are too
few of them (`Reaches.append_closers`), and the second text has a brace more for each block still
open.
-/

namespace PixelUnit.Sheet

open Outline

/-! ## Closing braces -/

theorem append_closers_succ (source : String) (n : Nat) :
    source ++ closers (n + 1) = source ++ "\x7d" ++ closers n := by
  rw [closers, List.replicate_succ, String.join_cons, String.append_assoc]
  rfl

theorem toList_closers (n : Nat) : (closers n).toList = List.replicate n '\x7d' := by
  induction n with
  | zero => rfl
  | succ n ih =>
    rw [closers, List.replicate_succ, String.join_cons, String.toList_append, List.replicate_succ]
    exact congrArg ('\x7d' :: ·) ih

theorem getLast?_append_closers (source : String) (n : Nat) :
    (source ++ closers n).toList.getLast? =
      if n = 0 then source.toList.getLast? else some '\x7d' := by
  rw [String.toList_append, toList_closers]
  cases n with
  | zero => simp
  | succ n => simp [List.getLast?_append, List.getLast?_replicate]

theorem append_closers_eq_self_iff {source : String} {n : Nat} :
    source ++ closers n = source ↔ n = 0 := by
  rw [← String.toList_inj, String.toList_append, toList_closers, List.append_right_eq_self,
    List.replicate_eq_nil_iff]

/-! ## How far a text is read -/

/-- The classes of the tokens of a text lead up to a stage. -/
structure Reaches (source : String) (ks : List Token.Kind) (s : Standing) : Prop where
  splits : ∃ ls, Splits source.toList ls ∧ ls.map Lexeme.kind = ks
  pass : Standing.pass ⟨0, .between⟩ ks = .ok s

namespace Reaches

variable {source : String} {ks : List Token.Kind} {s : Standing} {n : Nat}

theorem sound (h : Reaches source ks s) : s.Sound :=
  (Standing.sound_between 0).pass h.pass

theorem leavesOpen_iff (h : Reaches source ks s) : LeavesOpen ⟨0, .between⟩ ks ↔ s.Open := by
  unfold LeavesOpen
  rw [h.pass]
  exact ⟨fun ⟨_, heq, hopen⟩ => Except.ok.inj heq ▸ hopen, fun hopen => ⟨s, rfl, hopen⟩⟩

/-- A brace behind a text with open blocks closes one, unless the last token takes it or a bracket
is open. -/
theorem append_brace (h : Reaches source ks s) (hfinish : s.finish = .accepted (n + 1)) :
    ∃ us s', Reaches (source ++ "\x7d") us s' ∧
      (ReadsBrace source ∧ ¬s.Open ∧ us.getLast? = some .closeBrace ∧ s' = ⟨n, .between⟩ ∨
        (¬ReadsBrace source ∧ Takes ks us ∨ s.Open) ∧ s'.finish = .accepted (n + 1)) := by
  obtain ⟨ls, hls, rfl⟩ := h.splits
  obtain ⟨us, hus, ⟨hreads, -, hkinds⟩ | ⟨hreads, -, htakes⟩⟩ := readsBrace_or_takes hls
  · have hpass : Standing.pass ⟨0, .between⟩ (us.map Lexeme.kind) = s.step .closeBrace := by
      rw [hkinds, Standing.pass_append, h.pass]
      exact Standing.pass_singleton s .closeBrace
    obtain ⟨hclosed, hopen⟩ := Standing.step_closeBrace h.sound hfinish
    by_cases hs : s.Open
    · exact ⟨_, s, ⟨⟨us, hus, rfl⟩, hpass.trans (hopen hs)⟩, Or.inr ⟨Or.inr hs, hfinish⟩⟩
    · refine ⟨_, _, ⟨⟨us, hus, rfl⟩, hpass.trans (hclosed hs)⟩, Or.inl ⟨hreads, hs, ?_, rfl⟩⟩
      rw [hkinds, List.getLast?_concat]
  · have hpass := Standing.pass_of_takes htakes (Standing.sound_between 0) h.pass hfinish
    exact ⟨_, s, ⟨⟨us, hus, rfl⟩, hpass⟩, Or.inr ⟨Or.inl ⟨hreads, htakes⟩, hfinish⟩⟩

/-- Behind a brace that closes a block every brace closes one. -/
theorem append_closers_of_between (h : Reaches source ks ⟨n, .between⟩)
    (hlast : ks.getLast? = some .closeBrace) :
    ∃ us, Reaches (source ++ closers n) us ⟨0, .between⟩ := by
  induction n generalizing source ks with
  | zero => exact ⟨ks, by simpa [closers] using h⟩
  | succ n ih =>
    obtain ⟨us, s', hreaches, ⟨-, -, hlast', rfl⟩ | ⟨⟨-, htakes⟩ | hopen, -⟩⟩ := h.append_brace rfl
    · rw [append_closers_succ]
      exact ih hreaches hlast'
    · exact absurd hlast htakes.getLast?_ne
    · exact absurd hopen (Standing.not_open_between _)

/-- No brace closes more than one block. -/
theorem append_closers (h : Reaches source ks s) (hfinish : s.finish = .accepted n) {k : Nat}
    (hk : k ≤ n) : ∃ us s' m, Reaches (source ++ closers k) us s' ∧ s'.finish = .accepted m ∧
      n ≤ m + k := by
  induction k generalizing source ks s n with
  | zero => exact ⟨ks, s, n, by simpa [closers] using h, hfinish, Nat.le_refl _⟩
  | succ k ih =>
    obtain ⟨n, rfl⟩ := Nat.exists_eq_succ_of_ne_zero (Nat.pos_iff_ne_zero.1 (by omega : 0 < n))
    rw [append_closers_succ]
    obtain ⟨us, s', hreaches, ⟨-, -, -, rfl⟩ | ⟨-, hfinish'⟩⟩ := h.append_brace hfinish
    · obtain ⟨vs, s'', m, hm, hfinish'', hle⟩ := ih hreaches rfl (Nat.le_of_succ_le_succ hk)
      exact ⟨vs, s'', m, hm, hfinish'', by omega⟩
    · obtain ⟨vs, s'', m, hm, hfinish'', hle⟩ := ih hreaches hfinish' (Nat.le_of_succ_le hk)
      exact ⟨vs, s'', m, hm, hfinish'', by omega⟩

end Reaches

/-! ## Without the line feed at the end -/

/-- An address without an end has none either before a part of the text behind it. -/
theorem splitUrl_of_append {r x t u : List Char} {e : Fault.Cause}
    (h : splitUrl (r ++ x) = (t, u, some e)) : ∃ t', splitUrl r = (t', [], some .unclosedUrl) := by
  have happ := splitUrl_append r
  rcases hs : splitUrl r with ⟨t', u', e'⟩
  rw [hs] at happ
  dsimp only at happ
  cases e' with
  | none =>
    rw [← happ, List.append_assoc, splitUrl_congr hs] at h
    cases h
  | some e' =>
    obtain rfl := splitUrl_unclosed hs
    obtain rfl := Option.some.inj ((splitUrl_fault hs).resolve_left (Option.some_ne_none e'))
    exact ⟨t', rfl⟩

/-- An address without an end is one without the line feed that it ends in, too. -/
theorem Lexeme.read_dropFeed {c : Char} {q : List Char} {l : Lexeme}
    (h : read c (q ++ ['\n']) = .ok l) (hurl : l.fault = some .unclosedUrl) :
    ∃ l', read c q = .ok l' ∧ l'.kind = l.kind ∧ l'.rest = [] ∧ l'.fault = l.fault := by
  cases form_of_read h with
  | comment | spacing | string | punctuation | atKeyword | word => cases hurl
  | badString hc hs =>
    cases hurl
    rcases splitString_broken hs with ⟨he, -⟩ | ⟨he, -⟩ <;> cases he
  | @url t r v w e hc hs hname hu hopen =>
    obtain rfl := hurl
    have happ := splitWord_append (q ++ ['\n'])
    rw [hs] at happ
    dsimp only at happ
    obtain ⟨x, hx, rfl⟩ := exists_concat_of_append happ (List.cons_ne_nil _ _)
    cases x with
    | nil => cases hx
    | cons d x =>
      obtain ⟨rfl, rfl⟩ := List.cons.inj hx
      obtain ⟨v', hu'⟩ := splitUrl_of_append hu
      rw [List.append_assoc, List.cons_append] at hs hc
      have hword : splitWord (t ++ '(' :: x) = (t, '(' :: x) :=
        splitWord_congr hs (List.cons_ne_nil _ _) rfl
      have hopen' : opensUrl ('(' :: x) = true :=
        (opensUrl_concat (List.cons_ne_nil _ _) rfl).symm.trans hopen
      exact ⟨_, read_of_form (.url (startsWord_congr hc hs (List.cons_ne_nil _ _) rfl) hword hname
        hu' hopen'), rfl, rfl, rfl⟩

namespace Splits

variable {q : List Char} {ls : List Lexeme}

/-- The address itself, which takes the whole text. -/
theorem dropFeed_url {c : Char} {cs : List Char} {l : Lexeme} (hcs : q ++ ['\n'] = c :: cs)
    (hread : Lexeme.read c cs = .ok l) (hl : l.fault = some .unclosedUrl) :
    ∃ l', Splits q [l'] ∧ l'.kind = l.kind ∧ l'.fault = some .unclosedUrl := by
  cases q with
  | nil =>
    -- a line feed alone is no address
    obtain ⟨rfl, -⟩ := List.cons.inj hcs
    cases Lexeme.form_of_read hread with
    | comment | spacing | string | punctuation | atKeyword | word => cases hl
    | badString hc => cases hc
    | url hc => cases hc.noSpacing
  | cons d q =>
    obtain ⟨rfl, rfl⟩ := List.cons.inj hcs
    obtain ⟨l', hread', hkind, hrest', hfault⟩ := Lexeme.read_dropFeed hread hl
    exact ⟨l', .cons hread' (hrest' ▸ .nil), hkind, hfault.trans hl⟩

/-- A text that ends in an address without an end is cut alike without the line feed at its end. -/
theorem dropFeed (h : Splits (q ++ ['\n']) ls) (hurl : ∃ l ∈ ls, l.fault = some .unclosedUrl) :
    ∃ us, Splits q us ∧ us.map Lexeme.kind = ls.map Lexeme.kind ∧
      ∃ u ∈ us, u.fault = some .unclosedUrl := by
  generalize hcs : q ++ ['\n'] = cs at h
  induction h generalizing q with
  | nil => simp at hcs
  | @cons c cs l ls hread hrest ih =>
    by_cases hl : l.fault = some .unclosedUrl
    · obtain rfl : ls = [] := by
        rw [(Lexeme.last_of_unclosedUrl hread hl).2] at hrest
        exact hrest.of_nil
      obtain ⟨l', hl', hkind, hfault⟩ := dropFeed_url hcs hread hl
      exact ⟨[l'], hl', by simp [hkind], l', List.mem_singleton_self l', hfault⟩
    · have hbehind : ∃ u ∈ ls, u.fault = some .unclosedUrl := by
        simpa [hl] using hurl
      have hnil : l.rest ≠ [] := by
        obtain ⟨u, hu, -⟩ := hbehind
        obtain ⟨v, vs, rfl⟩ := List.exists_cons_of_ne_nil (List.ne_nil_of_mem hu)
        exact hrest.ne_nil
      obtain ⟨x, hx, rfl⟩ := exists_concat_of_append
        ((Lexeme.raw_append_rest hread).trans hcs.symm) hnil
      obtain ⟨us, hus, hkinds, u, hu, hfault⟩ := ih hbehind hx.symm
      have hxnil : x ≠ [] := by
        rintro rfl
        rw [hus.of_nil] at hu
        cases hu
      obtain ⟨t, hraw, rfl⟩ := Lexes.exists_read hread
      have hread' : Lexeme.read c (t ++ x) = .ok ⟨l.kind, c :: t, x, l.fault⟩ := by
        refine (Lexeme.read_concat_iff hxnil rfl (by decide) fun _ _ => rfl).1 ?_
        rw [← hx, hread, ← hraw]
      refine ⟨⟨l.kind, c :: t, x, l.fault⟩ :: us, ?_, congrArg (l.kind :: ·) hkinds, u,
        List.mem_cons_of_mem _ hu, hfault⟩
      rw [hraw]
      exact .cons hread' hus

end Splits

namespace SourceReading

variable {source : String} {file : Option String} {tree : Tree}

/-- A sheet that is read leads up to the end of all but its open blocks. -/
theorem reaches_of_tree (h : (ofSource source file).tree = .ok tree) :
    ∃ s, Reaches source ((scanSource source).tokens.map Token.kind) s ∧
      s.finish = .accepted (openBlocks source) := by
  obtain ⟨hfailure, -⟩ := tokens_of_tree h
  obtain ⟨ls, hls⟩ := exists_splits hfailure
  have houtcome := outcome_ofSource file hfailure
  rw [run_eq, outcome, h] at houtcome
  dsimp only at houtcome
  rw [countP_unclosedBlock h] at houtcome
  cases hpass : Standing.pass ⟨0, .between⟩ ((scanSource source).tokens.map Token.kind) with
  | error e =>
    rw [hpass] at houtcome
    cases houtcome
  | ok s =>
    rw [hpass] at houtcome
    exact ⟨s, ⟨⟨ls, hls, hls.map_kind.symm⟩, hpass⟩, houtcome.symm⟩

/-- A text that leads up to the end of all but some blocks is a sheet that is read. -/
theorem tree_of_reaches {ks : List Token.Kind} {s : Standing} {n : Nat} (h : Reaches source ks s)
    (hfinish : s.finish = .accepted n) (file : Option String) :
    ∃ tree, (ofSource source file).tree = .ok tree ∧ openBlocks source = n := by
  obtain ⟨ls, hls, rfl⟩ := h.splits
  obtain ⟨hfailure, -⟩ := hls.scan (.ofSource source.toList) rfl
  have houtcome := outcome_ofSource file hfailure
  rw [run_eq, hls.map_kind, h.pass, Standing.outcome, hfinish, outcome] at houtcome
  cases htree : (ofSource source file).tree with
  | error e =>
    rw [htree] at houtcome
    cases houtcome
  | ok tree =>
    rw [htree] at houtcome
    exact ⟨tree, rfl, (countP_unclosedBlock htree).symm.trans (Outcome.accepted.inj houtcome)⟩

/-- Without the line feed that it loses a sheet has the same open blocks, and its last token takes a
brace. -/
theorem reaches_of_losesFeed (h : (ofSource source file).tree = .ok tree)
    (hloses : LosesFeed source tree) {kept : String} (hkept : source = kept ++ "\n") :
    ∃ ks s, Reaches kept ks s ∧ s.finish = .accepted (openBlocks source) ∧
      ¬ReadsBrace kept ∧ ¬ReadsBrace source := by
  obtain ⟨s, hreaches, hfinish⟩ := reaches_of_tree h
  obtain ⟨ls, hls, hkinds⟩ := hreaches.splits
  have hurl := (hls.exists_fault_iff .unclosedUrl).1 hloses.openUrl
  have hlist : source.toList = kept.toList ++ ['\n'] := by
    rw [hkept, String.toList_append]
    rfl
  obtain ⟨us, hus, hsame, hurl'⟩ := (hlist ▸ hls).dropFeed hurl
  have hopen : OpenEnded kept := by
    obtain ⟨f, hf, hcause⟩ := (hus.exists_fault_iff .unclosedUrl).2 hurl'
    exact ⟨f, hf, Or.inr hcause⟩
  have hopen' : OpenEnded source := by
    obtain ⟨f, hf, hcause⟩ := hloses.openUrl
    exact ⟨f, hf, Or.inr hcause⟩
  exact ⟨_, s, ⟨⟨us, hus, hsame.trans hkinds⟩, hreaches.pass⟩, hfinish,
    not_readsBrace_of_openEnded (hus.scan (.ofSource kept.toList) rfl).1 hopen,
    not_readsBrace_of_openEnded (tokens_of_tree h).1 hopen'⟩

/-- What is written before the closing braces leads up to as many open blocks, and a brace behind it
closes one if it does behind the sheet. -/
theorem exists_reaches (h : (ofSource source file).tree = .ok tree) :
    ∃ kept ks s, tree.text false = kept ++ closers (openBlocks source) ∧ Reaches kept ks s ∧
      s.finish = .accepted (openBlocks source) ∧
      (ReadsBrace kept ∧ ¬s.Open ↔ ReadsBrace source ∧
        ∀ f ∈ (ofSource source file).faults, f.cause ≠ .unclosedBracket) := by
  by_cases hloses : LosesFeed source tree
  · obtain ⟨kept, hkept, -, htext⟩ := text_of_losesFeed h hloses
    obtain ⟨ks, s, hreaches, hfinish, hnot, hnot'⟩ := reaches_of_losesFeed h hloses hkept
    exact ⟨kept, ks, s, htext, hreaches, hfinish, iff_of_false (hnot ·.1) (hnot' ·.1)⟩
  · obtain ⟨s, hreaches, hfinish⟩ := reaches_of_tree h
    refine ⟨source, _, s, text_eq_append_closers h hloses, hreaches, hfinish,
      and_congr_right fun _ => ?_⟩
    rw [← hreaches.leavesOpen_iff, ← unclosedBracket_iff h]
    simp only [not_exists, not_and, ne_eq]

/-- No line feed is lost when a sheet is saved again. -/
theorem not_losesFeed_again (h : (ofSource source file).tree = .ok tree) {tree' : Tree}
    (h' : (ofSource (tree.text false) file).tree = .ok tree') :
    ¬LosesFeed (tree.text false) tree' := by
  intro hloses'
  by_cases hloses : LosesFeed source tree
  · obtain ⟨kept, -, hlast, htext⟩ := text_of_losesFeed h hloses
    have hfeed := hloses'.feed
    rw [htext, getLast?_append_closers] at hfeed
    split at hfeed
    · exact hlast hfeed
    · cases hfeed
  · have htext := text_eq_append_closers h hloses
    have hfeed := hloses'.feed
    rw [htext, getLast?_append_closers] at hfeed
    split at hfeed
    · -- the sheet is what is written
      next hnone =>
      have hsame : tree.text false = source := by
        rw [htext, hnone]
        simp [closers]
      rw [hsame, h] at h'
      rw [hsame, ← Except.ok.inj h'] at hloses'
      exact hloses hloses'
    · cases hfeed

/-- A sheet that is read is read again from what is written back. The text that is written then has
a brace more for each block that is still open. It is the same if all blocks had ends, or if a brace
behind the sheet is a token of its own and no bracket is open there. -/
theorem text_again (h : (ofSource source file).tree = .ok tree) :
    ∃ tree', (ofSource (tree.text false) file).tree = .ok tree' ∧
      tree'.text false = tree.text false ++ closers (openBlocks (tree.text false)) ∧
      (tree'.text false = tree.text false ↔
        (∀ f ∈ (ofSource source file).faults, f.cause ≠ .unclosedBlock) ∨
          ReadsBrace source ∧
            ∀ f ∈ (ofSource source file).faults, f.cause ≠ .unclosedBracket) := by
  have hblocks : (∀ f ∈ (ofSource source file).faults, f.cause ≠ .unclosedBlock) ↔
      openBlocks source = 0 := by
    rw [← countP_unclosedBlock h, List.countP_eq_zero]
    simp only [decide_eq_true_eq, ne_eq]
  -- the blocks that are open in what is written decide
  suffices hagain : ∃ ks s n, Reaches (tree.text false) ks s ∧ s.finish = .accepted n ∧
      (n = 0 ↔ openBlocks source = 0 ∨ ReadsBrace source ∧
        ∀ f ∈ (ofSource source file).faults, f.cause ≠ .unclosedBracket) by
    obtain ⟨ks, s, n, hreaches, hfinish, hiff⟩ := hagain
    obtain ⟨tree', htree', hopen⟩ := tree_of_reaches hreaches hfinish file
    have htext := text_eq_append_closers htree' (not_losesFeed_again h htree')
    refine ⟨tree', htree', htext, ?_⟩
    rw [hblocks, ← hiff, htext, hopen, append_closers_eq_self_iff]
  obtain ⟨kept, ks, s, htext, hreaches, hfinish, hiff⟩ := exists_reaches h
  rw [htext, ← hiff]
  cases hn : openBlocks source with
  | zero =>
    rw [hn] at hfinish
    exact ⟨ks, s, 0, by simpa [closers] using hreaches, hfinish, by simp⟩
  | succ n =>
    rw [hn] at hfinish
    rw [append_closers_succ]
    obtain ⟨us, s', hbrace, ⟨hreads, hopen, hlast, rfl⟩ | ⟨htaken, hfinish'⟩⟩ :=
      hreaches.append_brace hfinish
    · obtain ⟨vs, hend⟩ := hbrace.append_closers_of_between hlast
      exact ⟨vs, _, 0, hend, rfl, by simp [hreads, hopen]⟩
    · obtain ⟨vs, s'', m, hend, hfinish'', hle⟩ := hbrace.append_closers hfinish' (Nat.le_succ n)
      refine ⟨vs, s'', m, hend, hfinish'', iff_of_false (by omega) ?_⟩
      rintro (hzero | ⟨hreads, hopen⟩)
      · cases hzero
      · rcases htaken with ⟨hnot, -⟩ | hopen'
        · exact hnot hreads
        · exact hopen hopen'

/-- A sheet that breaks off in two blocks, behind a string that is broken off and a bracket that
does not match. -/
def twoBlocksSheet : String :=
  "@m\x7ba\x7bb:'c\n];d:e"

/-- This sheet gets its two braces, and then stays as it is. -/
theorem text_again_twoBlocksSheet : ∃ tree, (ofSource twoBlocksSheet none).tree = .ok tree ∧
    (ofSource twoBlocksSheet none).faults.map Fault.cause =
      [.brokenString, .unclosedBlock, .unclosedBlock] ∧
    ∃ tree', (ofSource (tree.text false) none).tree = .ok tree' ∧
      tree'.text false = tree.text false := by
  obtain ⟨tree, htree, -⟩ : ∃ tree, (ofSource twoBlocksSheet none).tree = .ok tree ∧
      tree.text false = twoBlocksSheet ++ "\x7d\x7d" := exists_of_tree_map (by decide +kernel)
  obtain ⟨tree', htree', -, hsame⟩ := text_again htree
  have hreads : ReadsBrace twoBlocksSheet := by decide +kernel
  have hclosed : ∀ f ∈ (ofSource twoBlocksSheet none).faults, f.cause ≠ .unclosedBracket := by
    decide +kernel
  exact ⟨tree, htree, by decide +kernel, tree', htree', hsame.2 (Or.inr ⟨hreads, hclosed⟩)⟩

/-- A sheet that breaks off in an address. -/
def openUrlSheet : String :=
  "a\x7bb:url(x"

/-- This sheet does not stay as it is. -/
theorem not_text_again_openUrlSheet : ∃ tree tree', (ofSource openUrlSheet none).tree = .ok tree ∧
    (ofSource (tree.text false) none).tree = .ok tree' ∧
      tree'.text false ≠ tree.text false := by
  obtain ⟨tree, htree, htext⟩ : ∃ tree, (ofSource openUrlSheet none).tree = .ok tree ∧
      tree.text false = "a\x7bb:url(x\x7d" := exists_of_tree_map (by decide +kernel)
  obtain ⟨tree', htree', htext'⟩ : ∃ tree', (ofSource "a\x7bb:url(x\x7d" none).tree = .ok tree' ∧
      tree'.text false = "a\x7bb:url(x\x7d\x7d" := exists_of_tree_map (by decide +kernel)
  refine ⟨tree, tree', htree, by rwa [htext], ?_⟩
  rw [htext, htext']
  decide

end SourceReading

end PixelUnit.Sheet
