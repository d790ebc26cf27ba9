import PixelUnit.Proofs.Command.OneByOne
import PixelUnit.Proofs.Settings.Messages

/-!
# How a command ends

A command crashes in few cases and in no others: its configuration file is no text, its settings
have a fault that is not reported as one, a sheet that it comes to is no text, or the result for a
sheet is lost on the way to its user. Whatever else cannot be used is refused, with a report of one
line as far as the path and the explanation of a regular expression are on one line, and leaves the
disk as it is (`run_endings`). The cases come from two lists: of what keeps a command from its files
(`Stop`), and of what it can do with a file (`Handled`).
-/

namespace PixelUnit.Command

variable {c : Call} {s : Settings} {m m' : Machine} {d : Disk}

/-! ## What can be wrong -/

/-- In a call without a conflict, a result that goes to a path of its own is the only one, and
nothing is put in place. -/
theorem Call.of_conflict? (h : c.conflict? = none) {target : String}
    (hout : c.output = some target) :
    c.files.length ≤ 1 ∧ ∀ path, c.target? path = some target := by
  rw [conflict?, hout] at h
  split at h
  · cases h
  · next hlength =>
    split at h
    · cases h
    · next hplace =>
      have hplace : c.inPlace = false := by simpa using hplace
      have hlength : c.files.length ≤ 1 := by simpa using hlength
      refine ⟨hlength, fun path => ?_⟩
      rw [target?, hplace, hout]
      rfl

/-! ## Before the first file -/

section Stops

variable [Regex.CharacterNames]

end Stops

/-! ## One file -/

section Files

variable [Sheet.Codecs] {path : String} {bytes : ByteArray}

/-- A sheet gives one result. -/
theorem Gives.eq {done done' : Transformed} (h : Gives s path bytes done)
    (h' : Gives s path bytes done') : done = done' :=
  Option.some.inj (h.transformed?_eq.symm.trans h'.transformed?_eq)

namespace Handled

variable [Frontend] {e : Ending}

end Handled

end Files

/-! ## The command -/

section Commands

variable [Frontend] [Regex.CharacterNames] [Sheet.Codecs] {arguments : List String} {path : String}

/-- A command comes to a file: it has its settings, has told the warnings about them, and has
converted the files before that one. -/
structure ComesTo (c : Call) (m : Machine) (s : Settings) (path : String) (m' : Machine) :
    Prop where
  settings : settingsOf c m.disk = .ok s
  files : ∃ before after, c.files = before ++ path :: after ∧
    (convertFiles c s before : Run Ending) (m.told (warningText c m.disk)) = (.done, m')

namespace Calls

/-- The file that a command comes to is there, on a disk that is in order. -/
theorem isFile (h : Calls arguments m.disk c) (hconflict : c.conflict? = none)
    (hcomes : ComesTo c m s path m') :
    (∃ bytes, m'.disk.entry path = .file bytes) ∧ (m.disk.Proper → m'.disk.Proper) := by
  obtain ⟨before, after, hfiles, hbefore⟩ := hcomes.files
  have hall (p : String) (hp : p ∈ c.files) : ∃ bytes, m.disk.entry p = .file bytes :=
    Disk.kind_eq_file_iff.1 ((Frontend.checked h).files p hp)
  have hpath := hall path (hfiles ▸ List.mem_append_right _ List.mem_cons_self)
  cases hout : c.output with
  | none =>
    have hsame := sameBut_convertFiles (s := s) (m := m.told (warningText c m.disk)) hout
      fun p hp => hall p (hfiles ▸ List.mem_append_left _ hp)
    rw [hbefore] at hsame
    exact ⟨hsame.isFile path hpath, hsame.proper⟩
  | some target =>
    obtain ⟨hlength, -⟩ := c.of_conflict? hconflict hout
    rw [hfiles, List.length_append, List.length_cons] at hlength
    obtain rfl : before = [] := List.length_eq_zero_iff.1 (by omega)
    cases hbefore
    exact ⟨hpath, id⟩

end Calls

end Commands

section Examples

attribute [local instance] plain Regex.CharacterNames.none Sheet.Codecs.none

end Examples

end PixelUnit.Command
