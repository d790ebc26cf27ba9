import PixelUnit.Proofs.Command.InPlace
import PixelUnit.Proofs.Sheet.Restored

/-!
# Files without anything to convert

A command that puts its results in place writes every file, also those in which nothing is to be
converted. A file about which all reports say that nothing was converted holds at the end what it
held before, `restored` as often as it was named (`restored_of_run`): without a byte order mark, and
with an end for each of its blocks.
-/

namespace PixelUnit.Command

variable {c : Call} {s : Settings} {m m' : Machine}

/-! ## What is there in the end -/

/-- The number in a report can be read from it. -/
theorem countText_inj {a b : Nat} : countText a = countText b ↔ a = b := by
  refine ⟨fun h => ?_, congrArg countText⟩
  have hrepr : a.repr = b.repr := String.append_left_inj _ |>.1 h
  rw [← Nat.ofDigitChars_ten_toDigits (n := a), ← Nat.toList_repr, hrepr, Nat.toList_repr,
    Nat.ofDigitChars_ten_toDigits]

/-- A sheet in which nothing was converted is written as it was read. -/
theorem toUTF8_of_transformed? [Sheet.Codecs] {path : String} {bytes : List UInt8}
    {done : Transformed}
    (h : transformed? s path ⟨bytes.toArray⟩ = some done) (hcount : done.count = 0)
    (hrestores : Sheet.Restores path bytes) :
    (done.tree.text false).toUTF8 = ⟨(Sheet.restored bytes).toArray⟩ := by
  unfold transformed? at h
  split at h
  · cases h
  · next tree htree =>
    obtain ⟨done', hdone, hsame⟩ := exists_transformTree s (branches_of_treeOfFile htree)
    rw [hdone] at h
    cases h
    rw [hsame hcount, Sheet.toUTF8_eq, Sheet.written_text_of_treeOfFile htree hrestores]

/-- Paths that lead to the same place have the same there. -/
theorem Disk.entry_congr {d : Disk} {a b : String} (h : d.resolve a = d.resolve b) :
    d.entry a = d.entry b := by
  rw [entry, h, entry]

/-- How many of some paths lead to where a path leads. -/
def Disk.timesNamed (d : Disk) (path : String) (paths : List String) : Nat :=
  paths.countP fun p => d.resolve p = d.resolve path

/-- A path is named once more if one more path leads to the same file. -/
theorem Disk.timesNamed_cons {d : Disk} {path : String} (p : String) (paths : List String) :
    d.timesNamed path (p :: paths) =
      if d.resolve p = d.resolve path then d.timesNamed path paths + 1
      else d.timesNamed path paths := by
  rw [timesNamed, List.countP_cons]
  split <;> simp_all [timesNamed]

theorem Disk.timesNamed_congr {d d' : Disk} (h : ∀ p, d'.resolve p = d.resolve p) (path : String)
    (paths : List String) : d'.timesNamed path paths = d.timesNamed path paths := by
  simp only [timesNamed, h]

/-- What a path leads to is restored as often as it is converted, if nothing in it ever is. -/
theorem Conversions.entry_eq [Frontend] [Sheet.Codecs] {vs : List Conversion}
    (h : Conversions c s m vs m') {path : String} {bytes : List UInt8}
    (hbytes : m.disk.entry path = .file ⟨bytes.toArray⟩)
    (hvs : ∀ v ∈ vs, m.disk.resolve v.path = m.disk.resolve path →
      v.done.count = 0 ∧ Sheet.Restores v.path v.bytes) :
    m'.disk.entry path =
      .file ⟨(Sheet.restored^[m.disk.timesNamed path (vs.map Conversion.path)] bytes).toArray⟩ := by
  induction h generalizing bytes with
  | nil => exact hbytes
  | @cons m m' v vs disk hfile hdone hsave _ _ ih =>
    obtain ⟨hfirst, hothers⟩ := List.forall_mem_cons.1 hvs
    obtain ⟨p, hp, hover⟩ := Disk.savedOver hfile hsave
    have hresolve : ∀ other, disk.resolve other = m.disk.resolve other := hover.resolve_eq
    simp only [hresolve, Disk.timesNamed_congr hresolve] at ih
    rw [List.map_cons, Disk.timesNamed_cons]
    split
    · next hsame =>
      obtain ⟨hcount, hrestores⟩ := hfirst hsame
      obtain rfl : v.bytes = bytes := by
        have hentry := hfile.symm.trans ((Disk.entry_congr hsame).trans hbytes)
        exact congrArg (·.data.toList) (Entry.file.inj hentry)
      rw [Function.iterate_succ_apply]
      refine ih ?_ hothers
      rw [← toUTF8_of_transformed? hdone hcount hrestores]
      exact hover.entry_of_resolve_eq (hsame.symm.trans hp)
    · next hother =>
      refine ih ?_ hothers
      rw [← hbytes]
      exact hover.entry_of_resolve_ne fun hpath => hother (hp.trans hpath.symm)

/-! ## The command -/

/-- A command that ends well with its results put in place has converted its files one after the
other and shown a report on each. A file about which all reports say that nothing was converted
holds what it held, restored as often as it was named, if it is one that is restored. -/
theorem restored_of_run [Frontend] [Regex.CharacterNames] [Sheet.Codecs] {arguments : List String}
    (hcalls : Calls arguments m.disk c) (hplace : c.inPlace = true)
    (hexit : ((run arguments : Run Ending) m).1.exitCode? = some 0) :
    ∃ s vs, settingsOf c m.disk = .ok s ∧ vs.map Conversion.path = c.files ∧
      Conversions c s (m.told (warningText c m.disk)) vs ((run arguments : Run Ending) m).2 ∧
      ∀ path bytes, m.disk.entry path = .file ⟨bytes.toArray⟩ →
        (∀ v ∈ vs, m.disk.resolve v.path = m.disk.resolve path →
          countText v.done.count = "0 declaration(s) rewritten" ∧
            Sheet.Restores v.path v.bytes) →
        ((run arguments : Run Ending) m).2.disk.entry path =
          .file ⟨(Sheet.restored^[m.disk.timesNamed path c.files] bytes).toArray⟩ := by
  have hrun : (run arguments : Run Ending) m = (.done, ((run arguments : Run Ending) m).2) :=
    Prod.ext (exitCode?_eq_zero hexit) rfl
  generalize ((run arguments : Run Ending) m).2 = m' at hrun ⊢
  obtain ⟨-, s, hs, hrun⟩ := exists_settings_of_done hcalls hrun
  obtain ⟨vs, hvs, hconversions⟩ := exists_conversions hplace hrun
  refine ⟨s, vs, hs, hvs, hconversions, fun path bytes hbytes hreports => ?_⟩
  rw [← hvs]
  refine hconversions.entry_eq hbytes fun v hv hpath => ?_
  obtain ⟨hcount, hrestores⟩ := hreports v hv hpath
  exact ⟨countText_inj.1 (hcount.trans (by decide : _ = countText 0)), hrestores⟩

attribute [local instance] plain Regex.CharacterNames.none Sheet.Codecs.none

/-- A sheet with a byte order mark and a block without an end. -/
def brokenOffSheet : List UInt8 :=
  Sheet.byteOrderMark ++ Sheet.asciiBytes "a\x7bb:c"

/-- A sheet with a byte order mark and a block without an end is restored. -/
theorem restores_brokenOffSheet : Sheet.Restores "a.css" brokenOffSheet := by
  refine ⟨fun hmark => absurd hmark (by decide), fun source tree hsource _ hlost => ?_⟩
  have hdecode : (Sheet.decodeSheet "a.css" ⟨brokenOffSheet.toArray⟩).1.toOption =
      some "a\x7bb:c" := by
    decide +kernel
  rw [hsource] at hdecode
  obtain rfl := Option.some.inj hdecode
  obtain ⟨f, hf, -⟩ := hlost.openUrl
  have hnone : (Sheet.scanSource "a\x7bb:c").final.faults = [] := by
    decide +kernel
  rw [hnone] at hf
  cases hf

/-- Nothing is converted in this sheet; it loses its byte order mark and gets the brace that was
missing. -/
theorem restored_brokenOffSheet :
    ((run inPlaceArguments : Run Ending) (machineWith brokenOffSheet)).1.exitCode? = some 0 ∧
      ((run inPlaceArguments : Run Ending) (machineWith brokenOffSheet)).2.disk.entry "a.css" =
        .file ⟨(Sheet.restored brokenOffSheet).toArray⟩ := by
  have hexit : ((run inPlaceArguments : Run Ending) (machineWith brokenOffSheet)).1.exitCode? =
      some 0 := by
    decide +kernel
  obtain ⟨s, vs, hs, hfiles, hconversions, hrestored⟩ :=
    restored_of_run (calls_inPlaceArguments brokenOffSheet) rfl hexit
  have hbytes : (machineWith brokenOffSheet).disk.entry "a.css" =
      .file ⟨brokenOffSheet.toArray⟩ := by rfl
  have htimes : (machineWith brokenOffSheet).disk.timesNamed "a.css" inPlaceCall.files = 1 := by
    decide +kernel
  have hcount : ((settingsOf inPlaceCall (machineWith brokenOffSheet).disk).toOption.bind
      fun s => (transformed? s "a.css" ⟨brokenOffSheet.toArray⟩).map Transformed.count) =
        some 0 := by
    decide +kernel
  refine ⟨hexit, ?_⟩
  -- The run has this one file, so its view is the only one, and nothing in it was converted.
  have hrun := hrestored "a.css" brokenOffSheet hbytes fun v hv _ => ?_
  · rwa [htimes] at hrun
  · obtain ⟨v', rfl, hpath⟩ := List.map_eq_singleton_iff.1 hfiles
    obtain rfl := List.mem_singleton.1 hv
    obtain _ | ⟨hfile, hdone, -, -⟩ := hconversions
    obtain ⟨path, bytes, done, shown⟩ := v
    cases hpath
    obtain rfl : brokenOffSheet = bytes :=
      congrArg (·.data.toList) (Entry.file.inj (hbytes.symm.trans hfile))
    have hzero : (transformed? s "a.css" ⟨brokenOffSheet.toArray⟩).map Transformed.count =
        some 0 := by
      rw [hs] at hcount
      exact hcount
    rw [hdone] at hzero
    have hzero : done.count = 0 := Option.some.inj hzero
    refine ⟨?_, restores_brokenOffSheet⟩
    show countText done.count = _
    rw [hzero]
    decide

/-- Although nothing is converted in it, the file is not what it was. -/
theorem not_kept_brokenOffSheet :
    ((run inPlaceArguments : Run Ending) (machineWith brokenOffSheet)).1.exitCode? = some 0 ∧
      ((run inPlaceArguments : Run Ending) (machineWith brokenOffSheet)).2.err =
        "WARNING px2var.css.parser: a.css: Block was not closed at line 0, column 0\n" ++
          "\x1b[38;2;255;255;0ma.css: 0 declaration(s) rewritten\n" ∧
      ((run inPlaceArguments : Run Ending) (machineWith brokenOffSheet)).2.disk.files =
        (machineWith (Sheet.asciiBytes "a\x7bb:c\x7d")).disk.files ∧
      Sheet.asciiBytes "a\x7bb:c\x7d" ≠ brokenOffSheet := by
  decide +kernel

end PixelUnit.Command
