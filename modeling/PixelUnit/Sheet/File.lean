import PixelUnit.Sheet.Encoding
import PixelUnit.Sheet.Reading

/-!
# Files of stylesheets

The bytes of a file are decoded and read; the tree goes by the path of the file.
-/

namespace PixelUnit.Sheet

/-- Why a file gives no tree: its bytes are no text, or its text is no stylesheet. -/
inductive FileError where
  | unreadable (e : Unreadable)
  | fault (f : Fault)

variable [Codecs]

/-- The tree in the bytes of the file at `path`, and what is to be noted. -/
def treeOfFile (path : String) (bytes : ByteArray) : Except FileError Tree × Log :=
  match decodeSheet path bytes with
  | (.error e, log) => (.error (.unreadable e), log)
  | (.ok source, log) =>
    let reading := SourceReading.ofSource source (some path)
    (reading.tree.mapError .fault, log ++ reading.log)

/-- A file that gives a tree holds a text, and the tree is read from it. -/
theorem exists_of_treeOfFile {path : String} {bytes : ByteArray} {tree : Tree}
    (h : (treeOfFile path bytes).1 = .ok tree) :
    ∃ source, (decodeSheet path bytes).1 = .ok source ∧
      (SourceReading.ofSource source (some path)).tree = .ok tree := by
  unfold treeOfFile at h
  split at h
  · cases h
  · next source log hdecode =>
    refine ⟨source, by rw [hdecode], ?_⟩
    cases htree : (SourceReading.ofSource source (some path)).tree with
    | error f =>
      dsimp only at h
      rw [htree] at h
      cases h
    | ok t =>
      dsimp only at h
      rw [htree] at h
      cases h
      rfl

end PixelUnit.Sheet
