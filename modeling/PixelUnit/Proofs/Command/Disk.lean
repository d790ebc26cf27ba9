import PixelUnit.Command.Machine

/-!
# Saving over files

A file that is saved where there is one already changes nothing else: all paths lead where they led
before (`Disk.SavedOver.resolve_eq`), those that led to the old file to the new one
(`Disk.SavedOver.entry_of_resolve_eq`) and all others to what was there
(`Disk.SavedOver.entry_of_resolve_ne`).
-/

namespace PixelUnit

namespace Command

/-- A path that is not written as one to a directory is taken as it is written. -/
theorem Path.withoutSlash_eq {written : String} (h : asksForDirectory written = false) :
    withoutSlash written = written := by
  have hhead : ∀ c ∈ written.toList.reverse.head?, (c == '/') = false := by
    intro c hc
    rw [List.head?_reverse] at hc
    rw [asksForDirectory, hc] at h
    simpa using h
  have hdrop : written.toList.reverse.dropWhile (· == '/') = written.toList.reverse := by
    cases hcs : written.toList.reverse with
    | nil => rfl
    | cons c cs => rw [List.dropWhile_cons_of_neg (by simp [hhead c (by rw [hcs]; rfl)])]
  rw [withoutSlash, hdrop, List.reverse_reverse, String.ofList_toList]

namespace Disk

variable {d d' : Disk}

/-- Nothing on a disk is both a file and a directory. -/
def Proper (d : Disk) : Prop :=
  ∀ p, (d.file? p).isSome → d.isDirectory p = false

/-- What is a file at a path is found where the path leads. -/
theorem exists_of_entry {written : String} {bytes : ByteArray}
    (h : d.entry written = .file bytes) :
    ∃ p, d.resolve written = .ok p ∧ d.file? p = some bytes := by
  unfold entry at h
  split at h
  · cases h
  · next p hp =>
    split at h
    · next hfile =>
      cases h
      exact ⟨p, hp, hfile⟩
    · split at h <;> cases h

/-- A disk on which a file has been replaced. -/
structure SavedOver (d : Disk) (p : Path) (new : ByteArray) (d' : Disk) : Prop where
  file : (d.file? p).isSome
  eq : d' = d.put p new

/-- A file that is saved at a path to a file takes its place. -/
theorem savedOver {written : String} {old new : ByteArray} (hfile : d.entry written = .file old)
    (h : d.save written new = .ok d') :
    ∃ p, d.resolve written = .ok p ∧ d.SavedOver p new d' := by
  obtain ⟨p, hp, hold⟩ := exists_of_entry hfile
  unfold save at h
  split at h
  · cases h
  next q hq =>
  split at h
  · cases h
  next hnot =>
  rw [Bool.or_eq_true, not_or, Bool.not_eq_true] at hnot
  rw [Path.withoutSlash_eq hnot.1, hp] at hq
  cases hq
  exact ⟨p, hp, Option.isSome_of_eq_some hold, (Except.ok.inj h).symm⟩

namespace SavedOver

variable {p : Path} {new : ByteArray}

/-- Replacing a file does not change which files there are. -/
theorem isSome_file? (h : SavedOver d p new d') (q : Path) :
    (d'.file? q).isSome = (d.file? q).isSome := by
  rw [h.eq, file?_put]
  split
  · next hq => rw [beq_iff_eq.1 hq, h.file]; rfl
  · rfl

/-- Replacing a file does not change which directories there are. -/
theorem isDirectory_eq (h : SavedOver d p new d') (q : Path) :
    d'.isDirectory q = d.isDirectory q := by
  obtain ⟨old, hold⟩ := Option.isSome_iff_exists.1 h.file
  have hkeys : d'.files.map Prod.fst = d.files.map Prod.fst := by
    rw [h.eq]
    exact Table.map_fst_put hold new
  have hany (e : Disk) : (e.files.any fun f => q.isPrefixOf f.1 && q != f.1) =
      (e.files.map Prod.fst).any fun r => q.isPrefixOf r && q != r := by
    rw [List.any_map]
    rfl
  rw [isDirectory, isDirectory, hany, hany, hkeys]

/-- Replacing a file does not change where a path leads. -/
theorem follow_eq (h : SavedOver d p new d') (q : Path) (names : List String) :
    d'.follow q names = d.follow q names := by
  induction names generalizing q with
  | nil => rfl
  | cons name rest ih =>
    rw [follow.eq_def, follow.eq_def d]
    dsimp only
    rw [h.isDirectory_eq, h.isSome_file?]
    split
    · split <;> exact ih _
    · rfl

/-- All paths lead where they led. -/
theorem resolve_eq (h : SavedOver d p new d') (written : String) :
    d'.resolve written = d.resolve written := by
  rw [resolve, resolve]
  split
  · rfl
  · exact h.follow_eq _ _

/-- The new file is found where it was saved. -/
theorem entry_of_resolve_eq (h : SavedOver d p new d') {written : String}
    (hp : d.resolve written = .ok p) : d'.entry written = .file new := by
  have hfile : d'.file? p = some new := by
    rw [h.eq, file?_put, if_pos (beq_self_eq_true p)]
  rw [entry, h.resolve_eq, hp]
  simp only [hfile]

/-- Everything else is found where it was. -/
theorem entry_of_resolve_ne (h : SavedOver d p new d') {written : String}
    (hp : d.resolve written ≠ .ok p) : d'.entry written = d.entry written := by
  rw [entry, entry, h.resolve_eq]
  cases hq : d.resolve written with
  | error o => rfl
  | ok q =>
    have hne : (q == p) = false := by
      rw [beq_eq_false_iff_ne]
      rintro rfl
      exact hp hq
    have hfile : d'.file? q = d.file? q := by
      rw [h.eq, file?_put, hne]
      rfl
    simp only [hfile, h.isDirectory_eq]

/-- Nothing becomes both a file and a directory when a file is replaced. -/
theorem proper (h : SavedOver d p new d') (hd : d.Proper) : d'.Proper := by
  intro q hq
  rw [h.isDirectory_eq]
  rw [h.isSome_file?] at hq
  exact hd q hq

end SavedOver

/-- A disk on which nothing has changed but, perhaps, the files at some paths. -/
structure SameBut (d : Disk) (paths : List String) (d' : Disk) : Prop where
  resolve_eq : ∀ other, d'.resolve other = d.resolve other
  entry_eq : ∀ other, (∀ path ∈ paths, d.resolve path ≠ d.resolve other) →
    d'.entry other = d.entry other
  isFile : ∀ other, (∃ bytes, d.entry other = .file bytes) → ∃ bytes, d'.entry other = .file bytes
  proper : d.Proper → d'.Proper

namespace SameBut

variable {paths : List String}

theorem refl (d : Disk) (paths : List String) : d.SameBut paths d where
  resolve_eq _ := rfl
  entry_eq _ _ := rfl
  isFile _ h := h
  proper h := h

/-- Changes of a file and then of others are changes of all of them. -/
theorem cons {d'' : Disk} {path : String} (h : d.SameBut [path] d') (hrest : d'.SameBut paths d'') :
    d.SameBut (path :: paths) d'' where
  resolve_eq other := (hrest.resolve_eq other).trans (h.resolve_eq other)
  entry_eq other hne := by
    obtain ⟨hpath, hpaths⟩ := List.forall_mem_cons.1 hne
    rw [hrest.entry_eq other, h.entry_eq other (List.forall_mem_singleton.2 hpath)]
    intro p hp
    rw [h.resolve_eq, h.resolve_eq]
    exact hpaths p hp
  isFile other ho := hrest.isFile other (h.isFile other ho)
  proper hd := hrest.proper (h.proper hd)

/-- A disk on which a file was replaced has the same everywhere else. -/
theorem of_savedOver {path : String} {p : Path} {new : ByteArray} (hp : d.resolve path = .ok p)
    (h : d.SavedOver p new d') : d.SameBut [path] d' where
  resolve_eq := h.resolve_eq
  entry_eq other hne := h.entry_of_resolve_ne fun ho =>
    hne path List.mem_cons_self (hp.trans ho.symm)
  isFile other := by
    rintro ⟨bytes, hbytes⟩
    by_cases ho : d.resolve other = .ok p
    · exact ⟨new, h.entry_of_resolve_eq ho⟩
    · exact ⟨bytes, (h.entry_of_resolve_ne ho).trans hbytes⟩
  proper := h.proper

end SameBut

/-- Some paths are paths to files. -/
def AllFiles (d : Disk) (paths : List String) : Prop :=
  ∀ path ∈ paths, ∃ bytes, d.entry path = .file bytes

end Disk

end Command

end PixelUnit
