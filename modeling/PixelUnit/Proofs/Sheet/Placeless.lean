import PixelUnit.Proofs.Sheet.Steps

/-!
# Reading without places

The place of a token shows in the faults that are noted about it and nowhere else. So a reading
gives the same tree for tokens without places, and notes faults of the same kinds
(`Builder.run_bare`).
-/

namespace PixelUnit.Sheet

/-- A token without its place. -/
def Token.bare (t : Token) : Token :=
  { t with pos := .nowhere }

@[simp] theorem Token.kind_bare (t : Token) : t.bare.kind = t.kind := rfl

@[simp] theorem Token.raw_bare (t : Token) : t.bare.raw = t.raw := rfl

/-! ## Statements -/

@[simp] theorem rawText_map_bare (ts : List Token) : rawText (ts.map Token.bare) = rawText ts := by
  rw [rawText, List.map_map]
  rfl

theorem splitTrailing_map_bare (ts : List Token) :
    splitTrailing (ts.map Token.bare) =
      ((splitTrailing ts).1.map Token.bare, (splitTrailing ts).2.map Token.bare) := by
  simp only [splitTrailing, ← List.map_reverse, List.dropWhile_map, List.takeWhile_map]
  rfl

theorem cleanValue_map_bare (ts : List Token) (important : Bool) :
    cleanValue (ts.map Token.bare) important = cleanValue ts important := by
  have hfilter : (ts.map Token.bare).filter (·.kind != .comment) =
      (ts.filter (·.kind != .comment)).map Token.bare := List.filter_map
  simp only [cleanValue, hfilter, rawText_map_bare]

/-- Places play no part in what a declaration says. -/
theorem declarationOf_map_bare (before : String) (ts : List Token) :
    declarationOf before (ts.map Token.bare) = declarationOf before ts := by
  have htake : ∀ (p : Token → Bool) (us : List Token), (∀ t, p t.bare = p t) →
      (us.map Token.bare).takeWhile p = (us.takeWhile p).map Token.bare ∧
        (us.map Token.bare).dropWhile p = (us.dropWhile p).map Token.bare := by
    intro p us hp
    have hcomp : p ∘ Token.bare = p := funext hp
    rw [List.takeWhile_map, List.dropWhile_map, hcomp]
    exact ⟨rfl, rfl⟩
  obtain ⟨hfront, hbehind⟩ := htake (·.kind != .colon) ts fun _ => rfl
  unfold declarationOf
  rw [List.span_eq_takeWhile_dropWhile, List.span_eq_takeWhile_dropWhile, hfront, hbehind]
  cases ts.dropWhile (·.kind != .colon) with
  | nil => rfl
  | cons colon rest =>
    obtain ⟨hlead, hvalue⟩ := htake Token.isSpacing rest fun _ => rfl
    simp only [List.map_cons, splitTrailing_map_bare, hlead, hvalue, rawText_map_bare,
      List.isEmpty_map, cleanValue_map_bare, Token.raw_bare]

namespace Prelude

/-- A statement without the places of its tokens. -/
def bare (p : Prelude) : Prelude where
  tokens := p.tokens.map Token.bare
  stop := p.stop.map Token.bare
  rest := p.rest.map Token.bare
  unclosed := p.unclosed

/-- Places play no part in where a statement ends. -/
theorem read_map_bare (awaited : List Token.Kind) (ts : List Token) :
    read awaited (ts.map Token.bare) = (read awaited ts).bare := by
  fun_induction read awaited ts with
  | case8 awaited t r h1 h2 h3 h4 h5 h6 ih =>
    rw [List.map_cons, read]
    simp only [Token.kind_bare, h1, h2, h3, h4, h5, h6, if_false, ih, bare, cons, List.map_cons,
      Bool.false_eq_true]
  | _ => simp_all [read, bare, cons]

theorem opensBlock_bare (p : Prelude) : p.bare.opensBlock = p.opensBlock := by
  simp only [opensBlock, bare, Option.any_map]
  rfl

theorem endsInSemicolon_bare (p : Prelude) : p.bare.endsInSemicolon = p.endsInSemicolon := by
  simp only [endsInSemicolon, bare, Option.any_map]
  rfl

theorem map_cause_fault?_bare (p : Prelude) :
    p.bare.fault?.map Fault.cause = p.fault?.map Fault.cause := by
  unfold fault? bare
  dsimp only
  split
  · cases p.tokens <;> rfl
  · rfl

end Prelude

/-! ## Readings -/

namespace Builder

/-- Two readings have come equally far, but for the places of tokens. -/
structure Alike (b b' : Builder) : Prop where
  frame : b'.frame = b.frame
  pending : b'.pending = b.pending
  outer : b'.outer = b.outer
  causes : b'.faults.map Fault.cause = b.faults.map Fault.cause

end Builder

/-- Two readings end alike, but for the places of tokens. -/
structure Reading.Alike (r r' : Reading) : Prop where
  result : r'.result.toOption = r.result.toOption
  causes : r'.faults.map Fault.cause = r.faults.map Fault.cause

namespace Reading.Alike

variable {r r' : Reading}

theorem symm (h : Alike r r') : Alike r' r := ⟨h.result.symm, h.causes.symm⟩

theorem ok (h : Alike r r') {tree : Tree} (hok : r.result = .ok tree) : r'.result = .ok tree := by
  have hresult := h.result
  rw [hok] at hresult
  cases hend : r'.result with
  | error e => simp [hend, Except.toOption] at hresult
  | ok t => simpa [hend, Except.toOption] using hresult

theorem faults_eq_nil (h : Alike r r') (hnone : r.faults = []) : r'.faults = [] := by
  simpa [hnone] using h.causes

end Reading.Alike

namespace Builder

variable {b b' : Builder}

theorem Alike.note (h : Alike b b') (p : Prelude) :
    Alike (b.note p.fault?) (b'.note p.bare.fault?) where
  frame := h.frame
  pending := h.pending
  outer := h.outer
  causes := by
    have hfault : p.bare.fault?.toList.map Fault.cause = p.fault?.toList.map Fault.cause := by
      rw [← Option.toList_map, ← Option.toList_map, Prelude.map_cause_fault?_bare]
    simp only [Builder.note, List.map_append, h.causes, hfault]

/-- Readings that are alike end alike. -/
theorem Alike.finish (h : Alike b b') (pos pos' : Position) (rest rest' : List Token) :
    Reading.Alike (b.finish pos rest) (b'.finish pos' rest') where
  result := by
    rw [Builder.finish, Builder.finish, h.frame, h.pending, h.outer]
  causes := by
    simp only [Builder.finish, List.map_append, h.causes, h.outer, List.map_map]
    rfl

theorem Alike.fail (h : Alike b b') {fault fault' : Fault} (rest rest' : List Token) :
    Reading.Alike (b.fail fault rest) (b'.fail fault' rest') :=
  ⟨rfl, h.causes⟩

theorem Alike.pass (h : Alike b b') (ts us : List Token) : Alike (b.pass ts) (b'.pass us) :=
  ⟨h.frame, rfl, h.outer, h.causes⟩

theorem Alike.add (h : Alike b b') (ts us : List Token) (t : Tree) :
    Alike (b.add ts t) (b'.add us t) :=
  ⟨congrArg (·.add t) h.frame, rfl, h.outer, h.causes⟩

theorem Alike.setSemicolon (h : Alike b b') (semicolon : Bool) :
    Alike (b.setSemicolon semicolon) (b'.setSemicolon semicolon) :=
  ⟨congrArg (·.setSemicolon semicolon) h.frame, h.pending, h.outer, h.causes⟩

theorem Alike.openBlock (h : Alike b b') (ts us : List Token) (content : Content) (raws : Raws) :
    Alike (b.openBlock ts content raws) (b'.openBlock us content raws) :=
  ⟨rfl, rfl, congrArg₂ List.cons h.frame h.outer, h.causes⟩

/-- At-rules that are alike are added alike. -/
theorem Alike.addAtRule (h : Alike b b') (t : Token) (gap : List Token) (p : Prelude) :
    Alike (b.addAtRule t gap p) (b'.addAtRule t.bare (gap.map Token.bare) p.bare) := by
  have hnote := h.note p
  have htokens : p.bare.tokens = p.tokens.map Token.bare := rfl
  have hkeyword : t.bare.keyword = t.keyword := rfl
  unfold Builder.addAtRule
  simp only [htokens, splitTrailing_map_bare, rawText_map_bare, Prelude.opensBlock_bare,
    Prelude.endsInSemicolon_bare, hkeyword, hnote.pending]
  split
  · exact hnote.openBlock _ _ _ _
  · exact (hnote.setSemicolon _).add _ _ _

/-- Statements that are alike are added alike, or neither can be. -/
theorem Alike.addStatement (h : Alike b b') (p : Prelude) :
    Option.Rel Alike (b.addStatement p) (b'.addStatement p.bare) := by
  have htokens : p.bare.tokens = p.tokens.map Token.bare := rfl
  unfold Builder.addStatement
  simp only [htokens, splitTrailing_map_bare, rawText_map_bare, Prelude.opensBlock_bare,
    Prelude.endsInSemicolon_bare, declarationOf_map_bare, h.pending]
  split
  · exact .some (h.openBlock _ _ _ _)
  · cases declarationOf b.pending p.tokens with
    | none => exact .none
    | some d => exact .some ((h.setSemicolon _).add _ _ _)

/-- Blocks that are alike are closed alike, or neither can be. -/
theorem Alike.closeBlock (h : Alike b b') (t : Token) :
    Option.Rel Alike (b.closeBlock t) (b'.closeBlock t.bare) := by
  unfold Builder.closeBlock
  rw [h.outer]
  cases houter : b.outer with
  | nil => exact .none
  | cons f fs =>
    exact .some ⟨by rw [h.frame, h.pending], rfl, rfl, h.causes⟩

theorem Alike.skip (h : Alike b b') (t : Token) : Alike (b.skip t) (b'.skip t.bare) :=
  ⟨h.frame, by rw [Builder.skip, Builder.skip, h.pending, Token.raw_bare], h.outer, h.causes⟩

theorem Alike.skipSemicolon (h : Alike b b') (t : Token) :
    Alike (b.skipSemicolon t) (b'.skipSemicolon t.bare) :=
  ⟨h.frame, by rw [Builder.skipSemicolon, Builder.skipSemicolon, h.pending, Token.raw_bare],
    h.outer, h.causes⟩

theorem Alike.addComment (h : Alike b b') (t : Token) :
    Alike (b.addComment t) (b'.addComment t.bare) := by
  rw [addComment_eq, addComment_eq, h.pending]
  exact h.add _ _ _

/-- If one of two alike steps goes on, so does the other, alike. -/
theorem exists_alike {x y : Option Builder} {c : Builder} (h : Option.Rel Alike x y)
    (hx : x = some c) : ∃ c', y = some c' ∧ Alike c c' := by
  subst hx
  cases h with
  | some hc => exact ⟨_, rfl, hc⟩

theorem eq_none_of_rel {x y : Option Builder} (h : Option.Rel Alike x y) (hx : x = none) :
    y = none := by
  subst hx
  cases h
  rfl

/-- Tokens without their places are read alike. -/
theorem run_map_bare {b b' : Builder} (h : Alike b b') (ts : List Token) :
    Reading.Alike (b.run ts) (b'.run (ts.map Token.bare)) := by
  fun_induction b.run ts generalizing b' with
  | case1 b =>
    rw [List.map_nil, run]
    exact h.finish _ _ _ _
  | case2 b t r ht =>
    rw [List.map_cons, run_of_ending (t := t.bare) ht]
    exact h.finish _ _ _ _
  | case3 b t r ht ih =>
    rw [List.map_cons, run_of_spacing (t := t.bare) ht]
    exact ih (h.skip t)
  | case4 b t r ht ih =>
    rw [List.map_cons, run_of_semicolon (t := t.bare) ht]
    exact ih (h.skipSemicolon t)
  | case5 b t r ht c hc ih =>
    obtain ⟨c', hc', hclosed⟩ := exists_alike (h.closeBlock t) hc
    rw [List.map_cons, run_of_closeBrace (t := t.bare) ht, hc']
    exact ih hclosed
  | case6 b t r ht hc =>
    rw [List.map_cons, run_of_closeBrace (t := t.bare) ht, eq_none_of_rel (h.closeBlock t) hc]
    exact h.fail _ _
  | case7 b t r ht ih =>
    rw [List.map_cons, run_of_comment (t := t.bare) ht]
    exact ih (h.addComment t)
  | case8 b t r ht =>
    -- At-rules and statements are read ahead, where places do not count either.
    rename_i p ih
    have hcomp : Token.isSpacing ∘ Token.bare = Token.isSpacing := rfl
    rw [List.map_cons, run_of_atKeyword (t := t.bare) ht, List.takeWhile_map, List.dropWhile_map,
      hcomp, Prelude.read_map_bare]
    exact ih (h.addAtRule t _ p)
  | case9 b t r p c hc h1 h2 h3 h4 h5 h6 =>
    rename_i ih
    obtain ⟨c', hc', hadded⟩ := exists_alike ((h.note p).addStatement p) hc
    rw [List.map_cons, run_of_startsStatement (t := t.bare) ⟨h1, h2, h3, h4, h5, h6⟩,
      ← List.map_cons, Prelude.read_map_bare, hc']
    exact ih hadded
  | case10 b t r p hc h1 h2 h3 h4 h5 =>
    rename_i h6
    have hnone := eq_none_of_rel ((h.note p).addStatement p) hc
    rw [List.map_cons, run_of_startsStatement (t := t.bare) ⟨h1, h2, h3, h4, h5, h6⟩,
      ← List.map_cons, Prelude.read_map_bare, hnone]
    exact ((h.note p).pass _ _).fail _ _

end Builder

/-- The tokens of a sheet are read alike without their places. -/
theorem Reading.ofTokens_map_bare (ts : List Token) (file : Option String) :
    Reading.Alike (ofTokens ts file) (ofTokens (ts.map Token.bare) file) :=
  Builder.run_map_bare ⟨rfl, rfl, rfl, rfl⟩ ts

end PixelUnit.Sheet
