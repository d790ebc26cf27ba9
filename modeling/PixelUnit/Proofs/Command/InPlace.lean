import PixelUnit.Command.Plain
import PixelUnit.Proofs.Command.Disk
import PixelUnit.Proofs.Command.Handling
import PixelUnit.Proofs.Sheet.Written

/-!
# Converting in place

A command that ends well with its results put in place has converted its files one after the other:
each text was made from what the file held by then, saved where the file was, and reported
(`Conversions`, `exists_conversions`). `Converts` keeps the texts of that only: at the end every
path leads to the bytes of the last text that was made for it. Whether that text is read from them
again depends on the text alone (`reread_of_run_inPlace`); it is not if the sheet names an encoding
that it is not written in (`not_reread_legacySheet`).
-/

namespace PixelUnit.Command

/-! ## Files -/

/-- The tree in the bytes of a file, converted. -/
def transformed? [Sheet.Codecs] (s : Settings) (path : String) (bytes : ByteArray) :
    Option Transformed :=
  match (Sheet.treeOfFile path bytes).1 with
  | .error _ => none
  | .ok tree => (s.transformTree tree).toOption

/-- The result for a file is what its bytes are converted to. -/
theorem Gives.transformed?_eq [Sheet.Codecs] {s : Settings} {path : String} {bytes : ByteArray}
    {done : Transformed} (h : Gives s path bytes done) : transformed? s path bytes = some done := by
  obtain ⟨tree, htree, hdone⟩ := h
  rw [transformed?, htree]
  exact congrArg Except.toOption hdone

/-- What a command did with a file: the bytes that it held, what they were converted to, and the
report on it as it was shown. -/
structure Conversion where
  path : String
  bytes : List UInt8
  done : Transformed
  shown : String

/-- What is told while a file is converted in place. -/
def Conversion.text [Sheet.Codecs] (c : Call) (v : Conversion) : String :=
  readingText c v.path ⟨v.bytes.toArray⟩ ++ convertingText c v.path v.done ++ v.shown

section Conversions

variable [Frontend] [Sheet.Codecs]

/-- Files are converted in place one after the other, and a report on each is shown, which says how
many of its declarations were converted. -/
inductive Conversions (c : Call) (s : Settings) : Machine → List Conversion → Machine → Prop
  | nil {m : Machine} : Conversions c s m [] m
  | cons {m m' : Machine} {v : Conversion} {vs : List Conversion} {disk : Disk}
      (hfile : m.disk.entry v.path = .file ⟨v.bytes.toArray⟩)
      (hdone : transformed? s v.path ⟨v.bytes.toArray⟩ = some v.done)
      (hsave : m.disk.save v.path (v.done.tree.text false).toUTF8 = .ok disk)
      (hshown : Frontend.display (reportMarkup v.path (some v.path) v.done.count) = some v.shown)
      (hrest : Conversions c s { (m.told (v.text c)) with disk } vs m') :
      Conversions c s m (v :: vs) m'

/-- Files that are converted in place are converted one after the other. -/
theorem exists_conversions {c : Call} {s : Settings} {paths : List String} {m m' : Machine}
    (hplace : c.inPlace = true) (h : (convertFiles c s paths : Run Ending) m = (.done, m')) :
    ∃ vs, vs.map Conversion.path = paths ∧ Conversions c s m vs m' := by
  rw [convertFiles_eq_inTurn] at h
  induction paths generalizing m with
  | nil =>
    cases h
    exact ⟨[], rfl, .nil⟩
  | cons path paths ih =>
    obtain ⟨m₁, hfile, hrest⟩ := inTurn_cons_done h
    obtain ⟨bytes, hentry, hhandled⟩ := handled_of_done hfile
    have htarget : c.target? path = some path := if_pos hplace
    obtain ⟨vs, rfl, hvs⟩ := ih hrest
    cases hhandled with
    | @reported done m₂ shown hgives hdelivered hdisplay =>
      rw [htarget] at hdelivered hdisplay
      cases hdelivered with
      | printed hnone => cases hnone
      | saved hpath hsave =>
        cases hpath
        refine ⟨⟨path, bytes.data.toList, done, shown⟩ :: vs, rfl,
          .cons hentry hgives.transformed?_eq hsave hdisplay ?_⟩
        rw [Conversion.text, ← Machine.told_told]
        exact hvs

end Conversions

/-! ## Texts -/

section Converts

variable [Sheet.Codecs]

/-- The text that the bytes of a file are converted to. -/
def converted? (s : Settings) (path : String) (bytes : ByteArray) : Option String :=
  match (Sheet.treeOfFile path bytes).1 with
  | .error _ => none
  | .ok tree =>
    match s.transformTree tree with
    | .error _ => none
    | .ok done => some (done.tree.text false)

/-- The text that bytes are converted to is that of the converted tree. -/
theorem converted?_eq (s : Settings) (path : String) (bytes : ByteArray) :
    converted? s path bytes = (transformed? s path bytes).map fun done => done.tree.text false := by
  unfold converted? transformed?
  cases (Sheet.treeOfFile path bytes).1 with
  | error e => rfl
  | ok tree =>
    dsimp only
    cases s.transformTree tree <;> rfl

/-- Texts are made for files and put in their place, one after the other. -/
inductive Converts (s : Settings) : Disk → List (String × String) → Disk → Prop
  | nil {d : Disk} : Converts s d [] d
  | cons {d d' d'' : Disk} {path text : String} {bytes : ByteArray} {rest : List (String × String)}
      (hfile : d.entry path = .file bytes) (htext : converted? s path bytes = some text)
      (hsave : d.save path text.toUTF8 = .ok d') (hrest : Converts s d' rest d'') :
      Converts s d ((path, text) :: rest) d''

/-- A command that converts files in place makes their texts and puts them in their place. -/
theorem Conversions.converts [Frontend] {c : Call} {s : Settings} {m m' : Machine}
    {vs : List Conversion} (h : Conversions c s m vs m') :
    Converts s m.disk (vs.map fun v => (v.path, v.done.tree.text false)) m'.disk := by
  induction h with
  | nil => exact .nil
  | cons hfile hdone hsave _ _ ih =>
    refine .cons hfile ?_ hsave ih
    rw [converted?_eq, hdone]
    rfl

/-- A path to no file that is converted leads to what was there. -/
theorem Converts.entry_of_forall_ne {s : Settings} {d d' : Disk} {texts : List (String × String)}
    (h : Converts s d texts d') {path : String}
    (hne : ∀ e ∈ texts, d.resolve e.1 ≠ d.resolve path) : d'.entry path = d.entry path := by
  induction h with
  | nil => rfl
  | cons hfile _ hsave _ ih =>
    obtain ⟨p, hp, hover⟩ := Disk.savedOver hfile hsave
    obtain ⟨hfirst, hrest⟩ := List.forall_mem_cons.1 hne
    rw [ih fun e he => by rw [hover.resolve_eq, hover.resolve_eq]; exact hrest e he,
      hover.entry_of_resolve_ne fun hpath => hfirst (hp.trans hpath.symm)]

/-- A path leads to the text that was made last for where it leads. -/
theorem Converts.entry_of_last {s : Settings} {d d' : Disk} {earlier later : List (String × String)}
    {path text : String} (h : Converts s d (earlier ++ (path, text) :: later) d')
    (hlast : ∀ e ∈ later, d.resolve e.1 ≠ d.resolve path) :
    d'.entry path = .file text.toUTF8 := by
  induction earlier generalizing d with
  | nil =>
    obtain _ | ⟨hfile, -, hsave, hrest⟩ := h
    obtain ⟨p, hp, hover⟩ := Disk.savedOver hfile hsave
    rw [hrest.entry_of_forall_ne fun e he => by
      rw [hover.resolve_eq, hover.resolve_eq]; exact hlast e he]
    exact hover.entry_of_resolve_eq hp
  | cons e earlier ih =>
    obtain _ | ⟨hfile, -, hsave, hrest⟩ := h
    obtain ⟨p, -, hover⟩ := Disk.savedOver hfile hsave
    exact ih hrest fun e he => by rw [hover.resolve_eq, hover.resolve_eq]; exact hlast e he

/-- The text that is read from a path. -/
def reread (d : Disk) (path : String) : Option String :=
  match d.entry path with
  | .file bytes => (Sheet.decodeSheet path bytes).1.toOption
  | _ => none

end Converts

/-! ## The command -/

/-- Only a command that ends well exits with status 0. -/
theorem exitCode?_eq_zero {e : Ending} (h : e.exitCode? = some 0) : e = .done := by
  cases e with
  | done => rfl
  | refused | misused | crashed | halfPair => cases h

section Commands

variable [Frontend] [Regex.CharacterNames] [Sheet.Codecs]

/-- A command that ends well with its results put in place has converted all its files, under
settings that its call and the configuration file give. -/
theorem converts_of_run {arguments : List String} {c : Call} {m m' : Machine}
    (hcalls : Calls arguments m.disk c) (hplace : c.inPlace = true)
    (h : (run arguments : Run Ending) m = (.done, m')) :
    ∃ config s texts, configOn m.disk c.config = .ok config ∧
      Settings.layered config c.entries = .ok s ∧ texts.map Prod.fst = c.files ∧
      Converts s m.disk texts m'.disk := by
  obtain ⟨-, s, hs, h⟩ := exists_settings_of_done hcalls h
  obtain ⟨config, hconfig, hlayered, -⟩ := settingsOf_eq_ok hs
  obtain ⟨vs, hvs, hconversions⟩ := exists_conversions hplace h
  refine ⟨config, s, _, hconfig, hlayered, ?_, hconversions.converts⟩
  rw [← hvs, List.map_map]
  rfl

/-- A command that ends well with its results put in place has made a text for each of its files
from what the file held by then. At the end the text that was made last for what a path leads to is
read from there again exactly if it is one that is read back from UTF-8. -/
theorem reread_of_run_inPlace {arguments : List String} {c : Call} {m : Machine}
    (hcalls : Calls arguments m.disk c) (hplace : c.inPlace = true)
    (hexit : ((run arguments : Run Ending) m).1.exitCode? = some 0) :
    ∃ config s texts, configOn m.disk c.config = .ok config ∧
      Settings.layered config c.entries = .ok s ∧ texts.map Prod.fst = c.files ∧
      Converts s m.disk texts ((run arguments : Run Ending) m).2.disk ∧
      ∀ earlier path text later, texts = earlier ++ (path, text) :: later →
        (∀ e ∈ later, m.disk.resolve e.1 ≠ m.disk.resolve path) →
        (reread ((run arguments : Run Ending) m).2.disk path = some text ↔
          Sheet.ReadsBack text) := by
  have hrun : (run arguments : Run Ending) m = (.done, ((run arguments : Run Ending) m).2) :=
    Prod.ext (exitCode?_eq_zero hexit) rfl
  obtain ⟨config, s, texts, hconfig, hs, htexts, hconverts⟩ := converts_of_run hcalls hplace hrun
  refine ⟨config, s, texts, hconfig, hs, htexts, hconverts, ?_⟩
  rintro earlier path text later rfl hlast
  have hsome (x : Except Sheet.Unreadable String) : x.toOption = some text ↔ x = .ok text := by
    cases x <;> simp [Except.toOption]
  rw [reread, hconverts.entry_of_last hlast]
  exact (hsome _).trans (Sheet.decodeSheet_toUTF8_iff path text)

end Commands

attribute [local instance] plain Regex.CharacterNames.none Sheet.Codecs.none

/-- Converts one file in place. -/
def inPlaceArguments : List String :=
  ["a.css", "--in-place", "--css-variable=--u"]

/-- The call that these arguments make. -/
def inPlaceCall : Call where
  files := ["a.css"]
  variableName := some "--u"
  inPlace := true

/-- A machine with nothing but one file. -/
def machineWith (bytes : List UInt8) : Machine where
  disk := ⟨[(["a.css"], ⟨bytes.toArray⟩)]⟩

/-- A sheet that names an encoding with one byte for each character, and is in ASCII. -/
def asciiSheet : List UInt8 :=
  Sheet.asciiBytes "@charset \"latin-1\";a\x7bp:1px\x7d"

theorem calls_inPlaceArguments (bytes : List UInt8) :
    Calls inPlaceArguments (machineWith bytes).disk inPlaceCall := by
  rfl

/-- A sheet in ASCII is converted in place, and its result is read again as it was written. -/
theorem reread_asciiSheet :
    ((run inPlaceArguments : Run Ending) (machineWith asciiSheet)).1.exitCode? = some 0 ∧
      ∃ s text, converted? s "a.css" ⟨asciiSheet.toArray⟩ = some text ∧
        (reread ((run inPlaceArguments : Run Ending) (machineWith asciiSheet)).2.disk "a.css" =
          some text ↔ Sheet.ReadsBack text) := by
  have hexit : ((run inPlaceArguments : Run Ending) (machineWith asciiSheet)).1.exitCode? =
      some 0 := by
    decide +kernel
  obtain ⟨config, s, texts, -, -, hfiles, hconverts, hread⟩ :=
    reread_of_run_inPlace (calls_inPlaceArguments asciiSheet) rfl hexit
  obtain ⟨⟨path, text⟩, rfl, rfl⟩ := List.map_eq_singleton_iff.1 hfiles
  obtain _ | ⟨hfile, htext, -, -⟩ := hconverts
  have hbytes : (machineWith asciiSheet).disk.entry "a.css" = .file ⟨asciiSheet.toArray⟩ := by rfl
  rw [hbytes] at hfile
  cases hfile
  exact ⟨hexit, s, text, htext, hread [] _ text [] rfl (List.forall_mem_nil _)⟩

/-- The same sheet with a character outside ASCII, in the encoding that it names. -/
def legacySheet : List UInt8 :=
  Sheet.asciiBytes "@charset \"latin-1\";a\x7bp:1px;q:'" ++ [0xe9] ++ Sheet.asciiBytes "'\x7d"

/-- What is put in its place is read as another text. -/
theorem not_reread_legacySheet :
    ((run inPlaceArguments : Run Ending) (machineWith legacySheet)).1.exitCode? = some 0 ∧
      ((Settings.layered none inPlaceCall.entries).toOption.bind
          (converted? · "a.css" ⟨legacySheet.toArray⟩)) =
        some "@charset \"latin-1\";a\x7bp:calc(1*var(--u));q:'é'\x7d" ∧
      reread ((run inPlaceArguments : Run Ending) (machineWith legacySheet)).2.disk "a.css" =
        some "@charset \"latin-1\";a\x7bp:calc(1*var(--u));q:'Ã©'\x7d" := by
  decide +kernel

end PixelUnit.Command
