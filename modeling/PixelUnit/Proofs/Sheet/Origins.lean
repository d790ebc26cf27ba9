import PixelUnit.Proofs.Sheet.Steps
import PixelUnit.Proofs.Sheet.Trees

/-!
# Where nodes come from

Every declaration of a tree that was read comes from a run of tokens that was cut as one
(`Tree.FromTokens`, `Reading.all_fromTokens`): nothing else puts declarations into a tree. All
children are written with their containers.
-/

namespace PixelUnit.Sheet

/-! ## The text of a declaration -/

namespace DeclarationCut

variable {ts : List Token} (d : DeclarationCut ts) (before : String)

theorem valueFront_raws :
    Tree.valueFront (d.raws before) (rawText d.prop) = before ++ rawText d.prop ++ d.between :=
  rfl

theorem writtenValue_raws : Tree.writtenValue (d.raws before) d.clean = d.written := by
  unfold Tree.writtenValue raws
  by_cases h : d.clean = d.written <;> simp [h]

theorem valueEnd_raws (semicolon : Bool) :
    Tree.valueEnd (d.raws before) d.mark.isSome semicolon =
      d.behind ++ if semicolon then ";" else "" := by
  unfold Tree.valueEnd behind raws markText
  cases d.mark <;> simp [String.append_assoc]

end DeclarationCut

/-! ## Nodes from tokens -/

namespace Tree

/-- A node as it is read from some tokens: a declaration is a run of them cut as one, and all
children are written. -/
structure FromTokens (tokens : List Token) (content : Content) (raws : Raws) (ts : List Tree) :
    Prop where
  showsAll : ShowsAll content raws ts
  exists_cut : ∀ prop value important, content = .declaration prop value important →
    ∃ (before : String) (statement : List Token) (d : DeclarationCut statement),
      statement <:+: tokens ∧ content = d.content ∧ raws = d.raws before

variable {tokens : List Token} {content : Content} {raws : Raws} {ts : List Tree}

/-- Nodes other than declarations need no cut. -/
theorem FromTokens.of_not_declaration
    (hcontent : ∀ prop value important, content ≠ .declaration prop value important)
    (hshows : ShowsAll content raws ts) : FromTokens tokens content raws ts :=
  ⟨hshows, fun prop value important h => absurd h (hcontent prop value important)⟩

theorem FromTokens.of_showsChildren (h : showsChildren content = true) :
    FromTokens tokens content raws ts := by
  refine .of_not_declaration (fun prop value important heq => ?_) fun _ => h
  rw [heq] at h
  cases h

/-- A declaration that is from tokens keeps its value as it was written. -/
theorem FromTokens.keepsValue (h : FromTokens tokens content raws ts) :
    KeepsValue content raws ts := by
  intro prop value important hcontent kept hkept
  obtain ⟨before, statement, d, -, hd, hraws⟩ := h.exists_cut prop value important hcontent
  rw [hcontent, DeclarationCut.content, Content.declaration.injEq] at hd
  obtain ⟨-, rfl, -⟩ := hd
  rw [hraws, DeclarationCut.raws] at hkept
  dsimp only at hkept
  split at hkept
  · cases hkept
  · cases hkept
    rfl

end Tree

/-- What is known of an open container: its children are written, and they are from tokens. -/
structure Frame.FromTokens (tokens : List Token) (f : Frame) : Prop where
  showsChildren : Tree.showsChildren f.content = true
  children : ∀ t ∈ f.children, t.All (Tree.FromTokens tokens)

namespace Frame.FromTokens

variable {tokens : List Token} {f : Frame}

theorem add (hf : f.FromTokens tokens) {t : Tree} (ht : t.All (Tree.FromTokens tokens)) :
    (f.add t).FromTokens tokens := by
  refine ⟨hf.showsChildren, fun u hu => ?_⟩
  rcases List.mem_cons.1 hu with rfl | hu
  · exact ht
  · exact hf.children u hu

theorem setSemicolon (hf : f.FromTokens tokens) (semicolon : Bool) :
    (f.setSemicolon semicolon).FromTokens tokens :=
  ⟨hf.showsChildren, hf.children⟩

theorem close (hf : f.FromTokens tokens) (after : String) :
    (f.close after).All (Tree.FromTokens tokens) := by
  refine ⟨.of_showsChildren hf.showsChildren, Tree.allOf_iff.2 fun t ht => ?_⟩
  exact hf.children t (List.mem_reverse.1 ht)

end Frame.FromTokens

namespace Prelude

/-- The tokens of a statement stand side by side. -/
theorem tokens_infix (awaited : List Token.Kind) (ts : List Token) :
    (read awaited ts).tokens <:+: ts := by
  refine ⟨[], (read awaited ts).stop.toList ++ (read awaited ts).rest, ?_⟩
  rw [List.nil_append, ← List.append_assoc]
  exact taken_append_rest awaited ts

end Prelude

namespace Builder

/-- The content of the outermost of some open containers. -/
def bottomContent (f : Frame) : List Frame → Content
  | [] => f.content
  | g :: gs => bottomContent g gs

theorem bottomContent_congr {f g : Frame} (h : f.content = g.content) :
    ∀ fs : List Frame, bottomContent f fs = bottomContent g fs
  | [] => h
  | _ :: _ => rfl

theorem bottomContent_add (f : Frame) (t : Tree) (fs : List Frame) :
    bottomContent (f.add t) fs = bottomContent f fs :=
  bottomContent_congr (show (f.add t).content = f.content from rfl) fs

/-- What is known of a reading of tokens: those left are the last of them, the open containers are
from them, and the outermost is the sheet. -/
structure FromTokens (tokens : List Token) (file : Option String) (b : Builder)
    (ts : List Token) : Prop where
  suffix : ts <:+ tokens
  frame : b.frame.FromTokens tokens
  outer : ∀ f ∈ b.outer, f.FromTokens tokens
  bottom : bottomContent b.frame b.outer = .root file

variable {tokens : List Token} {file : Option String} {b b' : Builder} {ts ts' : List Token}

/-- Every step takes nodes from tokens. -/
theorem Step.fromTokens (h : Step b ts b' ts') (hb : b.FromTokens tokens file ts) :
    b'.FromTokens tokens file ts' := by
  obtain ⟨hsuffix, hframe, houter, hbottom⟩ := hb
  have hrest := h.suffix.trans hsuffix
  have hsame : ∀ {f : Frame}, f.content = b.frame.content →
      bottomContent f b.outer = .root file := fun h => (bottomContent_congr h _).trans hbottom
  have hopened : ∀ g ∈ b.frame :: b.outer, g.FromTokens tokens := by
    intro g hg
    rcases List.mem_cons.1 hg with rfl | hg
    · exact hframe
    · exact houter g hg
  cases h with
  | space ht => exact ⟨hrest, hframe, houter, hbottom⟩
  | semicolon ht => exact ⟨hrest, hframe, houter, hbottom⟩
  | @close t r f fs ht hfs =>
    rw [hfs] at houter hbottom
    exact ⟨hrest, (houter f List.mem_cons_self).add (hframe.close _),
      fun g hg => houter g (List.mem_cons_of_mem f hg), (bottomContent_add f _ fs).trans hbottom⟩
  | comment ht =>
    exact ⟨hrest, hframe.add ⟨.of_not_declaration nofun nofun, trivial⟩, houter, hsame rfl⟩
  | atBlock ht hgap hp hopen =>
    exact ⟨hrest, ⟨rfl, fun t ht => by cases ht⟩, hopened, hbottom⟩
  | atLine ht hgap hp hopen =>
    refine ⟨hrest, ?_, houter, hsame rfl⟩
    exact (hframe.setSemicolon _).add ⟨.of_not_declaration nofun fun h => absurd rfl h, trivial⟩
  | rule ht hp hopen =>
    exact ⟨hrest, ⟨rfl, fun t ht => by cases ht⟩, hopened, hbottom⟩
  | declaration ht hp hopen d =>
    subst hp
    refine ⟨hrest, ?_, houter, hsame rfl⟩
    refine (hframe.setSemicolon _).add ⟨⟨fun h => absurd rfl h, fun _ _ _ _ => ?_⟩, trivial⟩
    exact ⟨b.pending, _, d, (Prelude.tokens_infix [] _).trans hsuffix.isInfix, rfl, rfl⟩

/-- What is open is closed from the inside out. -/
theorem all_closeAll {tokens : List Token} : ∀ {fs : List Frame} {f : Frame} {after : String},
    f.FromTokens tokens → (∀ g ∈ fs, g.FromTokens tokens) →
    (closeAll f after fs).All (Tree.FromTokens tokens)
  | [], _, after, hf, _ => hf.close after
  | g :: gs, f, after, hf, hfs => by
    show (closeAll (g.add (f.close after)) "" gs).All (Tree.FromTokens tokens)
    refine all_closeAll ((hfs g List.mem_cons_self).add (hf.close after)) fun h hh => ?_
    exact hfs h (List.mem_cons_of_mem g hh)

/-- Closing all blocks leaves the outermost container. -/
theorem content_closeAll : ∀ (fs : List Frame) (f : Frame) (after : String),
    (closeAll f after fs).content = bottomContent f fs
  | [], _, _ => rfl
  | g :: gs, f, after => by
    show (closeAll (g.add (f.close after)) "" gs).content = bottomContent g gs
    rw [content_closeAll gs]
    exact bottomContent_add g _ gs

end Builder

/-- A tree that was read is a sheet made from the tokens. -/
theorem Reading.all_fromTokens {tokens : List Token} {file : Option String} {tree : Tree}
    (h : (Reading.ofTokens tokens file).result = .ok tree) :
    tree.All (Tree.FromTokens tokens) ∧ tree.content = .root file := by
  have hstart : (Builder.start file).FromTokens tokens file tokens :=
    ⟨List.suffix_refl _, ⟨rfl, fun t ht => by cases ht⟩, (fun f hf => by cases hf), rfl⟩
  obtain ⟨b, ts, pos, hb, -, hrun⟩ := Builder.run_invariant Builder.Step.fromTokens
    (Builder.start file) tokens hstart h
  unfold Reading.ofTokens at h
  rw [hrun] at h
  cases h
  exact ⟨Builder.all_closeAll hb.frame hb.outer,
    (Builder.content_closeAll _ _ _).trans hb.bottom⟩

end PixelUnit.Sheet
