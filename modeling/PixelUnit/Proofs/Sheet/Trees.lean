import Mathlib.Data.List.Basic
import PixelUnit.Sheet.Tree

/-!
# Trees in parts

The nodes of a tree are numbered, every node before its children. The text of a tree is cut into
parts (`Tree.parts`): its declarations, each with the number of its node and itself cut before and
behind its value, and the texts between them. New values take the places of the old ones, and
nothing else changes (`Tree.text_mapValues`).
-/

namespace PixelUnit.Sheet.Tree

mutual

/-- The number of nodes. -/
def size : Tree → Nat
  | .node _ _ ts => sizes ts + 1

/-- The number of nodes of several trees. -/
def sizes : List Tree → Nat
  | [] => 0
  | t :: ts => size t + sizes ts

end

theorem size_pos : ∀ t : Tree, 0 < t.size
  | .node _ _ _ => Nat.succ_pos _

/-! ## What holds of all nodes -/

mutual

/-- All nodes satisfy `P`. -/
def All (P : Content → Raws → List Tree → Prop) : Tree → Prop
  | .node content raws ts => P content raws ts ∧ AllOf P ts

/-- All nodes of several trees satisfy `P`. -/
def AllOf (P : Content → Raws → List Tree → Prop) : List Tree → Prop
  | [] => True
  | t :: ts => All P t ∧ AllOf P ts

end

section All

variable {P Q : Content → Raws → List Tree → Prop}

theorem allOf_iff : ∀ {ts : List Tree}, AllOf P ts ↔ ∀ t ∈ ts, t.All P
  | [] => by simp [AllOf]
  | t :: ts => by rw [AllOf, allOf_iff, List.forall_mem_cons]

mutual

theorem All.mono (h : ∀ content raws ts, P content raws ts → Q content raws ts) :
    ∀ {t : Tree}, t.All P → t.All Q
  | .node content raws ts, ht => ⟨h content raws ts ht.1, AllOf.mono h ht.2⟩

theorem AllOf.mono (h : ∀ content raws ts, P content raws ts → Q content raws ts) :
    ∀ {ts : List Tree}, AllOf P ts → AllOf Q ts
  | [], _ => trivial
  | _ :: _, hts => ⟨All.mono h hts.1, AllOf.mono h hts.2⟩

end

end All

/-- Only containers have children. -/
def Branches (content : Content) (_ : Raws) (ts : List Tree) : Prop :=
  ts ≠ [] → content.isContainer = true

/-- Whether the children of a node of this content are written. -/
def showsChildren : Content → Bool
  | .root _ | .rule _ | .atRule _ _ true => true
  | .atRule _ _ false | .declaration .. | .comment _ => false

/-- All children are written. -/
def ShowsAll (content : Content) (_ : Raws) (ts : List Tree) : Prop :=
  ts ≠ [] → showsChildren content = true

theorem ShowsAll.branches {content : Content} {raws : Raws} {ts : List Tree}
    (h : ShowsAll content raws ts) : Branches content raws ts := by
  intro hts
  have hshows := h hts
  cases content with
  | root | rule | atRule => rfl
  | declaration | comment => cases hshows

/-- The value that was kept as it was written is the value of the declaration. -/
def KeepsValue (content : Content) (raws : Raws) (_ : List Tree) : Prop :=
  ∀ prop value important, content = .declaration prop value important →
    ∀ kept, raws.value = some kept → kept.value = value

/-! ## Parts -/

/-- A part of the text of a tree. -/
inductive Part where
  /-- A text without values. -/
  | other (text : String)
  /-- A declaration, given the number of its node, its property and its value: the text before its
  value, its value as it was written, and the text behind it. -/
  | declaration (i : Nat) (prop value : String) (front written back : String)

namespace Part

/-- The text of a part. -/
def source : Part → String
  | other text => text
  | declaration _ _ _ front written back => front ++ written ++ back

/-- The text of a part with new values, where `r` gives some. -/
def replaced (r : Nat → String → String → Option String) : Part → String
  | other text => text
  | declaration i prop value front written back =>
    front ++ (r i prop value).getD written ++ back

/-- The number of a declaration. -/
def node? : Part → Option Nat
  | other _ => none
  | declaration i .. => some i

theorem filterMap_block (head tail : String) (ps : List Part) :
    (other head :: (ps ++ [other tail])).filterMap node? = ps.filterMap node? := by
  rw [List.filterMap_cons, node?, List.filterMap_append]
  exact List.append_nil _

end Part

/-- A value as it is written. -/
def writtenValue (raws : Raws) (value : String) : String :=
  match raws.value with
  | some kept => if kept.value == value then kept.raw else value
  | none => value

/-- The text before a value. -/
def valueFront (raws : Raws) (prop : String) : String :=
  raws.before.getD "" ++ prop ++ raws.between.getD ": "

/-- The text behind a value. -/
def valueEnd (raws : Raws) (important semicolon : Bool) : String :=
  (if important then raws.important.getD " !important" else "") ++ raws.trailing.getD "" ++
    (if semicolon then ";" else "")

/-- The text of a declaration is cut before and behind its value. -/
theorem declarationText_eq (raws : Raws) (prop value : String) (important semicolon : Bool) :
    declarationText raws prop value important semicolon =
      valueFront raws prop ++ writtenValue raws value ++ valueEnd raws important semicolon := by
  unfold declarationText valueFront writtenValue valueEnd
  cases raws.value <;> simp only [String.append_assoc]

mutual

/-- The parts of the text of a tree whose topmost node has number `i`. -/
def parts (semicolon : Bool) (i : Nat) : Tree → List Part
  | .node content raws ts =>
    let inner := partsOf (raws.semicolon == some true) (i + 1) ts
    match content with
    | .root _ => inner ++ [.other (raws.after.getD "")]
    | .rule selector =>
      .other (raws.before.getD "" ++ selector ++ raws.between.getD " " ++ "\x7b") ::
        (inner ++ [.other (raws.after.getD "" ++ "\x7d")])
    | .atRule name params true =>
      .other (atRuleHead raws name params ++ raws.between.getD " " ++ "\x7b") ::
        (inner ++ [.other (raws.after.getD "" ++ "\x7d")])
    | .atRule name params false =>
      [.other (atRuleHead raws name params ++ raws.between.getD "" ++
        (if semicolon then ";" else ""))]
    | .declaration prop value important =>
      [.declaration i prop value (valueFront raws prop) (writtenValue raws value)
        (valueEnd raws important semicolon)]
    | .comment text => [.other (commentText raws text)]

/-- The parts of the texts of siblings, the first of which has number `i`. -/
def partsOf (semicolon : Bool) (i : Nat) : List Tree → List Part
  | [] => []
  | t :: ts =>
    parts (semicolon || ts.any (!·.isComment)) i t ++ partsOf semicolon (i + t.size) ts

end

/-! ## New values -/

/-- A content with a new value, if `r` gives one. -/
def newContent (r : String → String → Option String) : Content → Content
  | .declaration prop value important => .declaration prop ((r prop value).getD value) important
  | c => c

mutual

/-- A tree whose topmost node has number `i` with new values. -/
def mapValues (r : Nat → String → String → Option String) (i : Nat) : Tree → Tree
  | .node content raws ts => .node (newContent (r i) content) raws (mapValuesOf r (i + 1) ts)

/-- Siblings, the first of which has number `i`, with new values. -/
def mapValuesOf (r : Nat → String → String → Option String) (i : Nat) : List Tree → List Tree
  | [] => []
  | t :: ts => mapValues r i t :: mapValuesOf r (i + t.size) ts

end

section Values

variable {r : Nat → String → String → Option String}

theorem isComment_mapValues (i : Nat) : ∀ t : Tree, (t.mapValues r i).isComment = t.isComment
  | .node content _ _ => by cases content <;> rfl

theorem any_mapValuesOf (i : Nat) : ∀ ts : List Tree,
    (mapValuesOf r i ts).any (!·.isComment) = ts.any (!·.isComment)
  | [] => rfl
  | t :: ts => by
    rw [mapValuesOf, List.any_cons, List.any_cons, isComment_mapValues, any_mapValuesOf]

/-- A declaration with a new value no longer has its value as it was written. -/
theorem writtenValue_getD (i : Nat) (prop : String) {raws : Raws} {value : String}
    (hr : ∀ i prop value, r i prop value ≠ some value)
    (hkept : ∀ kept, raws.value = some kept → kept.value = value) :
    writtenValue raws ((r i prop value).getD value) =
      (r i prop value).getD (writtenValue raws value) := by
  cases hnew : r i prop value with
  | none => rfl
  | some v =>
    have hv : value ≠ v := fun h => hr i prop value (h ▸ hnew)
    unfold writtenValue
    cases hraw : raws.value with
    | none => rfl
    | some kept =>
      have hne : ¬(kept.value == v) = true := by
        rw [hkept kept hraw, beq_iff_eq]
        exact hv
      simp only [Option.getD_some, if_neg hne]

mutual

/-- New values change the parts that are values, and no others. -/
theorem text_mapValues (hr : ∀ i prop value, r i prop value ≠ some value) :
    ∀ (t : Tree) (i : Nat) (semicolon : Bool), t.All KeepsValue →
      (t.mapValues r i).text semicolon =
        String.join ((t.parts semicolon i).map (Part.replaced r))
  | .node content raws ts, i, semicolon, hall => by
    have hinner := texts_mapValuesOf hr ts (i + 1) (raws.semicolon == some true) hall.2
    cases content with
    | root file =>
      show (node (.root file) raws (mapValuesOf r (i + 1) ts)).text semicolon = _
      rw [text, parts, hinner]
      simp [Part.replaced]
    | rule selector =>
      show (node (.rule selector) raws (mapValuesOf r (i + 1) ts)).text semicolon = _
      rw [text, parts, hinner]
      simp [Part.replaced, blockText, String.append_assoc]
    | atRule name params body =>
      show (node (.atRule name params body) raws (mapValuesOf r (i + 1) ts)).text semicolon = _
      cases body with
      | true =>
        rw [text, parts, hinner]
        simp [Part.replaced, blockText, String.append_assoc]
      | false =>
        rw [text, parts]
        simp [Part.replaced]
    | declaration prop value important =>
      have hwritten := writtenValue_getD i prop hr (hall.1 prop value important rfl)
      show (node (.declaration prop ((r i prop value).getD value) important) raws
        (mapValuesOf r (i + 1) ts)).text semicolon = _
      rw [text, parts, declarationText_eq, hwritten]
      simp [Part.replaced, String.append_assoc]
    | comment s =>
      show (node (.comment s) raws (mapValuesOf r (i + 1) ts)).text semicolon = _
      rw [text, parts]
      simp [Part.replaced]

/-- With new values, texts change in the parts that are declarations only. -/
theorem texts_mapValuesOf (hr : ∀ i prop value, r i prop value ≠ some value) :
    ∀ (ts : List Tree) (i : Nat) (semicolon : Bool), AllOf KeepsValue ts →
      texts semicolon (mapValuesOf r i ts) =
        String.join ((partsOf semicolon i ts).map (Part.replaced r))
  | [], i, semicolon, _ => rfl
  | t :: ts, i, semicolon, hall => by
    rw [mapValuesOf, texts, any_mapValuesOf, text_mapValues hr t i _ hall.1,
      texts_mapValuesOf hr ts (i + t.size) semicolon hall.2, partsOf, List.map_append,
      String.join_append]

end

mutual

theorem mapValues_none : ∀ (t : Tree) (i : Nat), t.mapValues (fun _ _ _ => none) i = t
  | .node content raws ts, i => by
    have hcontent : newContent (fun _ _ => none) content = content := by
      cases content <;> rfl
    rw [mapValues, hcontent, mapValuesOf_none]

theorem mapValuesOf_none : ∀ (ts : List Tree) (i : Nat),
    mapValuesOf (fun _ _ _ => none) i ts = ts
  | [], _ => rfl
  | t :: ts, i => by rw [mapValuesOf, mapValues_none, mapValuesOf_none]

end

/-- The parts make up the text. -/
theorem join_source_parts {t : Tree} (h : t.All KeepsValue) (i : Nat) (semicolon : Bool) :
    String.join ((t.parts semicolon i).map Part.source) = t.text semicolon := by
  have hsource : Part.replaced (fun _ _ _ => none) = Part.source := by
    funext p
    cases p <;> rfl
  have htext := text_mapValues (r := fun _ _ _ => none) (fun _ _ _ => nofun) t i semicolon h
  rw [mapValues_none, hsource] at htext
  exact htext.symm

end Values

/-! ## Declarations among the parts -/

section Declarations

variable {P : Content → Raws → List Tree → Prop} {j : Nat} {prop value front written back : String}

mutual

/-- A declaration among the parts is a node of the tree. -/
theorem exists_of_mem_parts : ∀ {t : Tree} {i : Nat} {semicolon : Bool}, t.All P →
    .declaration j prop value front written back ∈ t.parts semicolon i →
    ∃ raws important ts semicolon', P (.declaration prop value important) raws ts ∧
      front = valueFront raws prop ∧ written = writtenValue raws value ∧
      back = valueEnd raws important semicolon'
  | .node content raws ts, i, semicolon, hall, hmem => by
    have hinner := @exists_of_mem_partsOf ts (i + 1) (raws.semicolon == some true) hall.2
    cases content with
    | root file =>
      rw [parts] at hmem
      exact hinner (by simpa using hmem)
    | rule selector =>
      rw [parts] at hmem
      exact hinner (by simpa using hmem)
    | atRule name params body =>
      cases body with
      | true =>
        rw [parts] at hmem
        exact hinner (by simpa using hmem)
      | false =>
        rw [parts] at hmem
        simp at hmem
    | declaration prop' value' important =>
      rw [parts, List.mem_singleton, Part.declaration.injEq] at hmem
      obtain ⟨-, rfl, rfl, rfl, rfl, rfl⟩ := hmem
      exact ⟨raws, important, ts, semicolon, hall.1, rfl, rfl, rfl⟩
    | comment s =>
      rw [parts] at hmem
      simp at hmem

/-- A part that is a declaration comes from a node. -/
theorem exists_of_mem_partsOf : ∀ {ts : List Tree} {i : Nat} {semicolon : Bool}, AllOf P ts →
    .declaration j prop value front written back ∈ partsOf semicolon i ts →
    ∃ raws important ts' semicolon', P (.declaration prop value important) raws ts' ∧
      front = valueFront raws prop ∧ written = writtenValue raws value ∧
      back = valueEnd raws important semicolon'
  | [], _, _, _, hmem => by cases hmem
  | t :: ts, i, semicolon, hall, hmem => by
    rw [partsOf, List.mem_append] at hmem
    rcases hmem with hmem | hmem
    · exact exists_of_mem_parts hall.1 hmem
    · exact exists_of_mem_partsOf hall.2 hmem

end

end Declarations

/-! ## Sizes -/

section Sizes

variable (r : Nat → String → String → Option String)

mutual

theorem size_mapValues : ∀ (t : Tree) (i : Nat), (t.mapValues r i).size = t.size
  | .node _ _ ts, i => congrArg (· + 1) (sizes_mapValuesOf ts (i + 1))

theorem sizes_mapValuesOf : ∀ (ts : List Tree) (i : Nat), sizes (mapValuesOf r i ts) = sizes ts
  | [], _ => rfl
  | t :: ts, i => congrArg₂ (· + ·) (size_mapValues t i) (sizes_mapValuesOf ts (i + t.size))

end

end Sizes

end PixelUnit.Sheet.Tree
