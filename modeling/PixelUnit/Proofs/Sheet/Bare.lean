import PixelUnit.Proofs.Sheet.Importance
import PixelUnit.Proofs.Sheet.Origins

/-!
# Bare values

A value is bare if it is read to its end without a comment and has no mark of importance at its
end. What a declaration is understood to say is bare exactly if what its value leaves without its
comments can be read so, from the first character that is no blank, and has as many marks at its end
as the declaration says (`DeclarationCut.bare_clean_iff`). Comments at the ends of a value do no
harm (`DeclarationCut.uncommented_of_commentsAtEnds`).

Marks are counted before the comments are taken away, and one is taken away at most: a comment
behind a mark hides it, a second mark stays, and the pieces around a comment can make up another one
(`not_bare_hiddenMark`).
-/

namespace PixelUnit.Sheet

/-- A value holds no comment, and no mark of importance at its end. -/
structure Bare (value : String) : Prop where
  uncommented : Uncommented value
  unmarked : splitImportant value.toList = none

instance (value : String) : Decidable (Bare value) :=
  decidable_of_iff (Uncommented value ∧ splitImportant value.toList = none)
    ⟨fun h => ⟨h.1, h.2⟩, fun h => ⟨h.1, h.2⟩⟩

/-! ## Texts without their comments -/

section Texts

variable {ts us : List Token}

theorem withoutComments_append (ts us : List Token) :
    withoutComments (ts ++ us) = withoutComments ts ++ withoutComments us := by
  simp [withoutComments]

theorem withoutComments_eq (h : ∀ t ∈ ts, t.kind ≠ .comment) :
    withoutComments ts = (rawText ts).toList := by
  rw [withoutComments, List.filter_eq_self.2 fun t ht => by simpa using h t ht]

theorem isBlank_of_isSpacing {c : Char} (h : isSpacing c = true) : Text.isBlank c = true := by
  simp only [isSpacing, Bool.or_eq_true, beq_iff_eq] at h
  rcases h with (((rfl | rfl) | rfl) | rfl) | rfl <;> decide +kernel

/-- Comments and white space leave blanks. -/
theorem isBlank_of_mem_withoutComments (hmarks : ∀ t ∈ ts, t.kind.Marks t.raw.toList)
    (h : ∀ t ∈ ts, t.kind = .comment ∨ t.kind = .spacing) :
    ∀ c ∈ withoutComments ts, Text.isBlank c = true := by
  induction ts using List.reverseRecOn with
  | nil => exact List.forall_mem_nil _
  | append_singleton ts t ih =>
    intro c hc
    rw [withoutComments_concat, List.mem_append] at hc
    rcases hc with hc | hc
    · exact ih (fun u hu => hmarks u (by simp [hu])) (fun u hu => h u (by simp [hu])) c hc
    · split at hc
      · cases hc
      · next ht =>
        have hspacing := (h t (by simp)).resolve_left ht
        have hraw := hmarks t (by simp)
        rw [hspacing] at hraw
        exact isBlank_of_isSpacing (hraw c hc)

/-- The last of some tokens are read from the text behind the others. -/
theorem Scanner.Reads.exists_append {noted : List Fault} {pos : Position} {cs : List Char}
    (h : Reads noted pos cs (ts ++ us)) :
    ∃ pos' r, cs = (rawText ts).toList ++ r ∧ Reads noted pos' r us := by
  induction ts generalizing pos cs with
  | nil => exact ⟨pos, cs, rfl, h⟩
  | cons t ts ih =>
    cases h with
    | token hread hnoted hrest =>
      obtain ⟨pos', r, hr, hus⟩ := ih hrest
      refine ⟨pos', r, ?_, hus⟩
      rw [← Lexeme.raw_append_rest hread, hr]
      simp

end Texts

/-! ## Declarations -/

namespace DeclarationCut

variable {ts : List Token} (d : DeclarationCut ts)

/-- What the value leaves without its comments. -/
def left : List Char :=
  withoutComments d.value

/-- Comments stand at the ends of the value only, and what stands between them starts with no
blank. -/
def CommentsAtEnds : Prop :=
  ∃ front inner back, d.value = front ++ (inner ++ back) ∧
    (∀ t ∈ front ++ back, t.kind = .comment ∨ t.kind = .spacing) ∧
    (∀ t ∈ inner, t.kind ≠ .comment) ∧ ∀ c ∈ (rawText inner).toList.head?, Text.isBlank c = false

/-- The tokens of the value stand side by side in the statement. -/
theorem value_infix : d.value <:+: ts :=
  ⟨d.prop ++ d.gap ++ d.colon :: d.lead, d.trail, by
    conv_rhs => rw [d.tokens_eq]
    simp⟩

/-- What a declaration is understood to say is bare exactly if what its value leaves can be read
without a comment, and has as many marks at its end as the declaration says. -/
theorem bare_clean_iff (hmarks : ∀ t ∈ d.value, t.kind.Marks t.raw.toList) :
    Bare d.clean ↔ Uncommented (String.ofList (Text.trimStart d.left)) ∧
      marksAtEnd d.left = if d.mark.isSome then 1 else 0 := by
  have hends : d.mark.isSome = true → EndsInMark d.left := by
    intro hsome
    obtain ⟨⟨front, mark⟩, hmark⟩ := Option.isSome_iff_exists.1 hsome
    exact (endsInMark_of_splitImportant hmark).withoutComments hmarks
  obtain ⟨q, hq, hfree⟩ := exists_trimStart_eq_cleanValue hends
  have hleft : MeetsComment (Text.trimStart d.left) ↔ MeetsComment d.clean.toList := by
    rw [left, hq, meetsComment_append_iff hfree, clean, String.toList_ofList]
  have hunmarked : splitImportant d.clean.toList = none ↔
      marksAtEnd d.left = if d.mark.isSome then 1 else 0 := by
    rw [clean, String.toList_ofList]
    exact splitImportant_cleanValue_eq_none_iff hends
  rw [uncommented_iff, String.toList_ofList, hleft, ← hunmarked, ← uncommented_iff]
  exact ⟨fun h => ⟨h.1, h.2⟩, fun h => ⟨h.1, h.2⟩⟩

/-- Where comments stand at the ends of a value only, what it leaves can be read without one. -/
theorem uncommented_of_commentsAtEnds {noted : List Fault} {pos : Position} {cs : List Char}
    {tokens : List Token} (hreads : Scanner.Reads noted pos cs tokens) (hts : ts <:+: tokens)
    (h : d.CommentsAtEnds) : Uncommented (String.ofList (Text.trimStart d.left)) := by
  obtain ⟨front, inner, back, hvalue, hends, hinner, hhead⟩ := h
  have hmarks : ∀ t ∈ d.value, t.kind.Marks t.raw.toList := fun t ht =>
    hreads.marks (hts.subset (d.value_infix.subset ht))
  have hfront : ∀ c ∈ withoutComments front, Text.isBlank c = true :=
    isBlank_of_mem_withoutComments (fun t ht => hmarks t (by simp [hvalue, ht]))
      fun t ht => hends t (by simp [ht])
  have hback : ∀ c ∈ withoutComments back, Text.isBlank c = true :=
    isBlank_of_mem_withoutComments (fun t ht => hmarks t (by simp [hvalue, ht]))
      fun t ht => hends t (by simp [ht])
  have hleft : d.left = withoutComments front ++
      ((rawText inner).toList ++ withoutComments back) := by
    rw [left, hvalue, withoutComments_append, withoutComments_append, withoutComments_eq hinner]
  -- nothing but blanks is left around the tokens that are no comments
  obtain ⟨q, hq, hsuffix⟩ := exists_trimStart_append (rawText inner).toList (withoutComments back)
  have hstart : Text.trimStart (rawText inner).toList = (rawText inner).toList := by
    cases htext : (rawText inner).toList with
    | nil => rfl
    | cons c r => exact List.dropWhile_cons_of_neg (by simp [hhead c (by rw [htext]; rfl)])
  have htrim : Text.trimStart d.left = (rawText inner).toList ++ q := by
    rw [hleft, Text.trimStart, List.dropWhile_append_of_pos hfront, ← Text.trimStart, hq, hstart]
  have hfree : CommentFree q := .of_isBlank fun c hc => hback c (hsuffix.subset hc)
  rw [uncommented_iff, String.toList_ofList, htrim, meetsComment_append_iff hfree]
  obtain ⟨pre, post, hpost⟩ := (List.infix_append front inner back).trans
    ((List.append_assoc front inner back ▸ hvalue ▸ d.value_infix).trans hts)
  rw [← hpost, List.append_assoc] at hreads
  obtain ⟨pos', r, -, hinnerReads⟩ := hreads.exists_append
  obtain ⟨-, r', rfl, -⟩ := hinnerReads.exists_append
  exact hinnerReads.not_meetsComment rfl hinner

end DeclarationCut

/-! ## Sheets -/

namespace Tree

/-- A declaration has a bare value. -/
def HoldsBare (content : Content) (_ : Raws) (_ : List Tree) : Prop :=
  ∀ prop value important, content = .declaration prop value important → Bare value

/-- A declaration comes from a run of some tokens that was cut as one. Its value is bare exactly if
what the value leaves without its comments can be read without one, from the first character that is
no blank, and has one mark of importance at its end if the declaration is important, and none if
not. The first of these holds wherever comments stand at the ends of the value only. -/
def TellsBare (tokens : List Token) (content : Content) (raws : Raws) (_ : List Tree) : Prop :=
  ∀ prop value important, content = .declaration prop value important →
    ∃ (before : String) (statement : List Token) (d : DeclarationCut statement),
      statement <:+: tokens ∧ content = d.content ∧ raws = d.raws before ∧
        (Bare value ↔ Uncommented (String.ofList (Text.trimStart d.left)) ∧
          marksAtEnd d.left = if important then 1 else 0) ∧
        (d.CommentsAtEnds → Uncommented (String.ofList (Text.trimStart d.left)))

/-- The value in a part. -/
def Part.value? : Part → Option String
  | .other _ => none
  | .declaration _ _ value _ _ _ => some value

/-- The values of the declarations that are written, in order. -/
def values (t : Tree) : List String :=
  (t.parts false 0).filterMap Part.value?

/-- If all declarations of a tree have bare values, so are the values that are written. -/
theorem bare_of_mem_values {t : Tree} (h : t.All HoldsBare) {value : String}
    (hvalue : value ∈ t.values) : Bare value := by
  obtain ⟨p, hp, hv⟩ := List.mem_filterMap.1 hvalue
  cases p with
  | other => cases hv
  | declaration i prop v front written back =>
    obtain rfl := Option.some.inj hv
    obtain ⟨raws, important, ts, -, hbare, -⟩ := exists_of_mem_parts h hp
    exact hbare prop _ important rfl

end Tree

namespace SourceReading

/-- The values of a sheet are bare, but for marks and comments that come up as its comments are
taken away. -/
theorem all_tellsBare {source : String} {file : Option String} {tree : Tree}
    (h : (ofSource source file).tree = .ok tree) :
    tree.All (Tree.TellsBare (scanSource source).tokens) := by
  obtain ⟨hfailure, -, hresult, -⟩ := tokens_of_tree h
  have hreads := reads_scanSource hfailure
  refine (Reading.all_fromTokens hresult).1.mono fun content raws ts hnode => ?_
  intro prop value important hcontent
  obtain ⟨before, statement, d, hrun, hd, hraws⟩ := hnode.exists_cut prop value important hcontent
  have hmarks : ∀ t ∈ d.value, t.kind.Marks t.raw.toList := fun t ht =>
    hreads.marks (hrun.subset (d.value_infix.subset ht))
  obtain ⟨-, rfl, rfl⟩ := Content.declaration.inj (hcontent.symm.trans hd)
  exact ⟨before, statement, d, hrun, hd, hraws, d.bare_clean_iff hmarks,
    d.uncommented_of_commentsAtEnds hreads hrun⟩

/-- A sheet with comments around its values, within one, and within a string. -/
def commentedSheet : String :=
  "@m \x7b a\x7b b:/*1*/ 1px /*2*/! important; c: d/*3*/e; f:'/*4*/' \x7d\x7d"

/-- The values of this sheet are bare. -/
theorem all_tellsBare_commentedSheet :
    ∃ tree, (ofSource commentedSheet none).tree = .ok tree ∧
      tree.values = ["1px", "de", "'/*4*/'"] ∧ (∀ value ∈ tree.values, Bare value) ∧
      tree.All (Tree.TellsBare (scanSource commentedSheet).tokens) := by
  have hbare : ∀ value ∈ ["1px", "de", "'/*4*/'"], Bare value := by decide +kernel
  obtain ⟨tree, htree, hvalues⟩ : ∃ tree, (ofSource commentedSheet none).tree = .ok tree ∧
      tree.values = ["1px", "de", "'/*4*/'"] := exists_of_tree_map (by decide +kernel)
  exact ⟨tree, htree, hvalues, hvalues ▸ hbare, all_tellsBare htree⟩

/-- Behind a comment a mark of importance is not seen, and it stays once the comment is gone. -/
theorem not_bare_hiddenMark :
    ∃ tree, (ofSource "a\x7bb:c !important/**/\x7d" none).tree = .ok tree ∧
      tree.values = ["c !important"] ∧ ¬tree.All Tree.HoldsBare := by
  obtain ⟨tree, htree, hvalues⟩ :
      ∃ tree, (ofSource "a\x7bb:c !important/**/\x7d" none).tree = .ok tree ∧
        tree.values = ["c !important"] := exists_of_tree_map (by decide +kernel)
  refine ⟨tree, htree, hvalues, fun h => ?_⟩
  have hbare : Bare "c !important" := Tree.bare_of_mem_values h (by rw [hvalues]; simp)
  exact absurd hbare (by decide +kernel)

end SourceReading

end PixelUnit.Sheet
