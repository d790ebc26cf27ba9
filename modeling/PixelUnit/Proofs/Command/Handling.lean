import PixelUnit.Command.Basic
import PixelUnit.Command.Machine
import PixelUnit.Proofs.Transform.Counts
import PixelUnit.Proofs.Transform.Runs

/-!
# What a command does

On a machine, a command first has its arguments read, which changes nothing (`Inquiry.run_apply`),
then makes its settings (`settingsOf`), telling the warnings about them (`warningText`), and then
handles its files one by one. What it can do with one file is listed in `Handled`, which
`handled_convertFile` ties to the command; what is known about commands is derived from this list.
-/

namespace PixelUnit.Command

variable {α β : Type}

/-! ## Runs on machines -/

theorem Run.bind_apply (x : Run α) (f : α → Run β) (m : Machine) :
    (x >>= f) m = f (x m).1 (x m).2 := rfl

theorem Run.look_apply (path : String) (m : Machine) :
    (Host.look path : Run Entry) m = (m.disk.entry path, m) := rfl

/-- The kind of what is at a path of a disk. -/
def Disk.kind (d : Disk) (path : String) : Kind :=
  (d.entry path).kind

theorem Disk.kind_eq_file_iff {d : Disk} {path : String} :
    d.kind path = .file ↔ ∃ bytes, d.entry path = .file bytes := by
  unfold kind
  cases d.entry path <;> simp [Entry.kind]

/-- An inquiry changes nothing, and its answer is the one for the kinds on the disk. -/
theorem Inquiry.run_apply (q : Inquiry α) (m : Machine) :
    (q.run : Run α) m = (q.answerOn m.disk.kind, m) := by
  induction q with
  | answer a => rfl
  | look path next ih => exact ih _

/-! ## Reports -/

/-- A machine on which something more has been reported. -/
def Machine.told (m : Machine) (text : String) : Machine :=
  { m with err := m.err ++ text }

theorem Machine.told_empty (m : Machine) : m.told "" = m := by
  cases m
  simp [told]

theorem Machine.told_told (m : Machine) (a b : String) : (m.told a).told b = m.told (a ++ b) := by
  simp [told, String.append_assoc]

/-- The records that are wanted, each on a line of its own. -/
def logText (verbose : Bool) (log : Log) : String :=
  String.join ((log.filter fun r => verbose || r.level == .warning).map Record.line)

/-- What is logged is told, as far as it is wanted. -/
theorem tellLog_apply (verbose : Bool) (log : Log) (m : Machine) :
    (tellLog verbose log : Run Unit) m = ((), m.told (logText verbose log)) := by
  unfold tellLog logText
  induction log.filter (fun r => verbose || r.level == .warning) generalizing m with
  | nil => exact Prod.ext rfl m.told_empty.symm
  | cons r rs ih =>
    rw [List.map_cons, String.join_cons, ← Machine.told_told]
    exact ih _

/-! ## One after the other -/

/-- Does one thing after the other, up to the first that does not end well. -/
def inTurn : List (Run Ending) → Run Ending
  | [] => return .done
  | x :: xs => do
    match ← x with
    | .done => inTurn xs
    | ending => return ending

/-- Things are done one after the other if the first one ends well. -/
theorem inTurn_cons (x : Run Ending) (xs : List (Run Ending)) (m : Machine) :
    inTurn (x :: xs) m =
      match x m with
      | (.done, m₁) => inTurn xs m₁
      | (ending, m₁) => (ending, m₁) := by
  rw [inTurn, Run.bind_apply]
  rcases x m with ⟨ending, m₁⟩
  cases ending <;> rfl

/-- What does not end well is the last thing that is done. -/
theorem inTurn_cons_of_ne_done {x : Run Ending} {m m' : Machine} {e : Ending}
    (h : x m = (e, m')) (he : e ≠ .done) (xs : List (Run Ending)) :
    inTurn (x :: xs) m = (e, m') := by
  rw [inTurn_cons, h]
  cases e with
  | done => exact absurd rfl he
  | refused | misused | crashed | halfPair => rfl

theorem inTurn_cons_of_done {x : Run Ending} {m m' : Machine} (h : x m = (.done, m'))
    (xs : List (Run Ending)) : inTurn (x :: xs) m = inTurn xs m' := by
  rw [inTurn_cons, h]

theorem inTurn_singleton (x : Run Ending) (m : Machine) : inTurn [x] m = x m := by
  rw [inTurn_cons]
  rcases x m with ⟨ending, m₁⟩
  cases ending <;> rfl

/-- If all things end well, so do the first one and the others. -/
theorem inTurn_cons_done {x : Run Ending} {xs : List (Run Ending)} {m m' : Machine}
    (h : inTurn (x :: xs) m = (.done, m')) :
    ∃ m₁, x m = (.done, m₁) ∧ inTurn xs m₁ = (.done, m') := by
  rw [inTurn_cons] at h
  split at h
  · next m₁ hx => exact ⟨m₁, hx, h⟩
  · next hne _ =>
    cases h
    exact (hne rfl).elim

/-- Why a command does not come to its files. -/
inductive Stop where
  | config (e : Crash)
  | settings (f : Settings.Fault)
  | missingVariable

/-- How a command ends that does not come to its files. -/
def Stop.finish [Frontend] : Stop → Run Ending
  | config e => pure (.crashed e)
  | settings f => rejectSettings f
  | missingVariable =>
    misuse "a css variable is required, pass --css-variable or set cssVariable in --config"

/-- Settings with a fault that is reported are refused with its message. -/
theorem rejectSettings_apply [Frontend] {f : Settings.Fault} (h : f.isReported = true)
    (m : Machine) :
    (rejectSettings f : Run Ending) m = (.refused, m.told (Frontend.refusal f.message)) := by
  cases f with
  | regexError | longInteger | halfPair => cases h
  | _ => rfl

/-- A command that does not come to its files leaves the disk and the results as they are. What it
tells does not depend on what was told before. -/
theorem Stop.finish_apply [Frontend] (stop : Stop) :
    ∃ e text, e ≠ .done ∧ ∀ m, stop.finish m = (e, m.told text) := by
  have hsilent {e : Ending} (m : Machine) : (pure e : Run Ending) m = (e, m.told "") :=
    Prod.ext rfl m.told_empty.symm
  cases stop with
  | config e => exact ⟨.crashed e, "", nofun, hsilent⟩
  | missingVariable => exact ⟨.misused, _, nofun, fun m => rfl⟩
  | settings f =>
    cases hf : f.isReported with
    | true => exact ⟨.refused, _, nofun, rejectSettings_apply hf⟩
    | false =>
      cases f with
      | regexError cause => exact ⟨.crashed (.regexError cause), "", nofun, hsilent⟩
      | longInteger => exact ⟨.crashed .longInteger, "", nofun, hsilent⟩
      | halfPair => exact ⟨.halfPair, "", nofun, hsilent⟩
      | _ => cases hf

/-- The content of the configuration file on a disk. -/
def configOn (d : Disk) (path : Option String) : Except Crash (Option (String × String)) :=
  match path with
  | none => .ok none
  | some path =>
    match d.entry path with
    | .file bytes =>
      match String.fromUTF8? bytes with
      | some content => .ok (some (path, content))
      | none => .error .notText
    | _ => .error .gone

/-- The configuration file is looked up on the disk, and nothing else happens. -/
theorem readConfig_apply (path : Option String) (m : Machine) :
    (readConfig path : Run _) m = (configOn m.disk path, m) := by
  cases path with
  | none => rfl
  | some path =>
    rw [readConfig, configOn, Run.bind_apply, Run.look_apply]
    cases m.disk.entry path with
    | directory | absent => rfl
    | file bytes =>
      dsimp only
      cases String.fromUTF8? bytes <;> rfl

/-- The settings that a call and the configuration file on a disk give. -/
def settingsOf [Regex.CharacterNames] (c : Call) (d : Disk) : Except Stop Settings :=
  match configOn d c.config with
  | .error e => .error (.config e)
  | .ok config =>
    match Settings.layered config c.entries with
    | .error f => .error (.settings f)
    | .ok s => if s.variableName == "" then .error .missingVariable else .ok s

/-- A command has settings if what is on the disk and its flags give them, with a custom property
that is not empty. -/
theorem settingsOf_eq_ok [Regex.CharacterNames] {c : Call} {d : Disk} {s : Settings}
    (h : settingsOf c d = .ok s) :
    ∃ config, configOn d c.config = .ok config ∧
      Settings.layered config c.entries = .ok s ∧ s.variableName ≠ "" := by
  unfold settingsOf at h
  split at h
  · cases h
  · next config hconfig =>
    split at h
    · cases h
    · next hlayered =>
      split at h
      · cases h
      · next hname =>
        cases h
        exact ⟨config, hconfig, hlayered, by simpa using hname⟩

/-! ## Results -/

/-- What a machine is after a text has been handed over. -/
inductive Delivered [Frontend] (target : Option String) (text : String) (m : Machine) :
    Machine → Prop
  | printed {shown : String} (htarget : target = none) (hecho : Frontend.echo text = some shown) :
    Delivered target text m { m with out := m.out ++ shown }
  | saved {path : String} {disk : Disk} (htarget : target = some path)
      (hsave : m.disk.save path text.toUTF8 = .ok disk) : Delivered target text m { m with disk }

/-- Why a text is not handed over. -/
inductive Undelivered [Frontend] (target : Option String) (text : String) (d : Disk) : Crash → Prop
  | notPrinted (htarget : target = none) (hecho : Frontend.echo text = none) :
    Undelivered target text d .notPrinted
  | notSaved {path : String} {o : Obstacle} (htarget : target = some path)
      (hsave : d.save path text.toUTF8 = .error o) : Undelivered target text d (.notSaved o)

/-- A text is handed over, or it is not. -/
theorem deliver_apply [Frontend] (target : Option String) (text : String) (m : Machine) :
    (∃ m', (deliver target text : Run _) m = (.ok (), m') ∧ Delivered target text m m') ∨
      ∃ e, (deliver target text : Run _) m = (.error e, m) ∧
        Undelivered target text m.disk e := by
  cases target with
  | none =>
    cases hecho : Frontend.echo text with
    | none => exact .inr ⟨_, by rw [deliver, hecho]; rfl, .notPrinted rfl hecho⟩
    | some shown => exact .inl ⟨_, by rw [deliver, hecho]; rfl, .printed rfl hecho⟩
  | some path =>
    have hdeliver : (deliver (some path) text : Run _) m =
        (Except.mapError Crash.notSaved ((Host.save path text.toUTF8 : Run _) m).1,
          ((Host.save path text.toUTF8 : Run _) m).2) := rfl
    rw [hdeliver]
    simp only [Host.save]
    cases hsave : m.disk.save path text.toUTF8 with
    | error o => exact .inr ⟨_, rfl, .notSaved rfl hsave⟩
    | ok disk => exact .inl ⟨_, rfl, .saved rfl hsave⟩

/-- The tree of a file has children only where they can be. -/
theorem branches_of_treeOfFile [Sheet.Codecs] {path : String} {bytes : ByteArray}
    {tree : Sheet.Tree}
    (h : (Sheet.treeOfFile path bytes).1 = .ok tree) : tree.All Sheet.Tree.Branches := by
  obtain ⟨source, -, htree⟩ := Sheet.exists_of_treeOfFile h
  exact SourceReading.branches htree

/-! ## One file -/

section Files

variable [Frontend] [Sheet.Codecs]

/-- What is reported while a file is read. -/
def readingText (c : Call) (path : String) (bytes : ByteArray) : String :=
  logText c.verbose (Sheet.treeOfFile path bytes).2

/-- What is reported once a file has been read and converted, before its result is handed over. -/
def convertingText (c : Call) (path : String) (done : Transformed) : String :=
  logText c.verbose
    (done.log ++ [⟨.debug, .command, path ++ ": " ++ countText done.count⟩])

/-- A file gives a result under some settings. -/
def Gives (s : Settings) (path : String) (bytes : ByteArray) (done : Transformed) : Prop :=
  ∃ tree, (Sheet.treeOfFile path bytes).1 = .ok tree ∧ s.transformTree tree = .ok done

/-- What a command can do with a file: the file is read from the bytes in it and converted, the
result is handed over and a report is shown, or it comes to an end before. -/
inductive Handled (c : Call) (s : Settings) (path : String) (bytes : ByteArray) (m : Machine) :
    Ending → Machine → Prop
  | notText (h : (Sheet.treeOfFile path bytes).1 = .error (.unreadable .malformed)) :
    Handled c s path bytes m (.crashed .notText) (m.told (readingText c path bytes))
  | halfPair (h : (Sheet.treeOfFile path bytes).1 = .error (.unreadable .halfPair)) :
    Handled c s path bytes m .halfPair (m.told (readingText c path bytes))
  | fault {f : Sheet.Fault} (h : (Sheet.treeOfFile path bytes).1 = .error (.fault f)) :
    Handled c s path bytes m .refused
      (m.told (readingText c path bytes ++ Frontend.refusal (path ++ ": " ++ f.message)))
  | undelivered {done : Transformed} {e : Crash} (hgives : Gives s path bytes done)
      (h : Undelivered (c.target? path) (done.tree.text false) m.disk e) :
    Handled c s path bytes m (.crashed e)
      (m.told (readingText c path bytes ++ convertingText c path done))
  | notReported {done : Transformed} {m' : Machine} (hgives : Gives s path bytes done)
      (h : Delivered (c.target? path) (done.tree.text false)
        (m.told (readingText c path bytes ++ convertingText c path done)) m')
      (hdisplay : Frontend.display (reportMarkup path (c.target? path) done.count) = none) :
    Handled c s path bytes m (.crashed .notReported) m'
  | reported {done : Transformed} {m' : Machine} {shown : String}
      (hgives : Gives s path bytes done)
      (h : Delivered (c.target? path) (done.tree.text false)
        (m.told (readingText c path bytes ++ convertingText c path done)) m')
      (hdisplay : Frontend.display (reportMarkup path (c.target? path) done.count) =
        some shown) :
    Handled c s path bytes m .done (m'.told shown)

/-- A command does one of these things with a file. -/
theorem handled_convertFile (c : Call) (s : Settings) {path : String} {bytes : ByteArray}
    {m : Machine} (hentry : m.disk.entry path = .file bytes) :
    Handled c s path bytes m ((convertFile c s path : Run Ending) m).1
      ((convertFile c s path : Run Ending) m).2 := by
  unfold convertFile
  rw [Run.bind_apply, Run.look_apply, hentry]
  dsimp only
  rw [Run.bind_apply, tellLog_apply]
  -- A file that cannot be read ends the command, and so does one that is no sheet.
  cases htree : (Sheet.treeOfFile path bytes).1 with
  | error e =>
    cases e with
    | unreadable e =>
      cases e with
      | malformed => exact .notText htree
      | halfPair => exact .halfPair htree
    | fault f =>
      have h := Handled.fault (c := c) (s := s) (m := m) htree
      rw [← Machine.told_told] at h
      exact h
  | ok tree =>
    obtain ⟨done, hdone, -⟩ := exists_transformTree s (branches_of_treeOfFile htree)
    -- A sheet is converted, whatever is in it; writing the result is the only thing that may fail.
    dsimp only
    rw [hdone]
    dsimp only
    rw [Run.bind_apply, tellLog_apply, Run.bind_apply, Machine.told_told]
    have hgives : Gives s path bytes done := ⟨tree, htree, hdone⟩
    have hdelivered := deliver_apply (c.target? path) (done.tree.text false)
      (m.told (readingText c path bytes ++ convertingText c path done))
    unfold readingText convertingText at hdelivered
    obtain ⟨m', hdeliver, hm'⟩ | ⟨e, hdeliver, he⟩ := hdelivered
    · rw [hdeliver]
      dsimp only
      unfold report
      cases hdisplay : Frontend.display (reportMarkup path (c.target? path) done.count) with
      | none => exact .notReported hgives hm' hdisplay
      | some shown => exact .reported hgives hm' hdisplay
    · rw [hdeliver]
      exact .undelivered hgives he

/-- A file that is converted was there. -/
theorem handled_of_done {c : Call} {s : Settings} {path : String} {m m' : Machine}
    (h : (convertFile c s path : Run Ending) m = (.done, m')) :
    ∃ bytes, m.disk.entry path = .file bytes ∧ Handled c s path bytes m .done m' := by
  cases hentry : m.disk.entry path with
  | directory | absent =>
    rw [convertFile, Run.bind_apply, Run.look_apply, hentry] at h
    cases h
  | file bytes =>
    have hhandled := handled_convertFile c s hentry
    rw [h] at hhandled
    exact ⟨bytes, rfl, hhandled⟩

/-- Files are converted one after the other. -/
theorem convertFiles_eq_inTurn (c : Call) (s : Settings) (paths : List String) :
    (convertFiles c s paths : Run Ending) = inTurn (paths.map (convertFile c s)) := by
  induction paths with
  | nil => rfl
  | cons path paths ih =>
    rw [List.map_cons, inTurn, ← ih]
    rfl

end Files

/-! ## Calls -/

section Calls

variable [Frontend] [Regex.CharacterNames] [Sheet.Codecs]

/-- The arguments call the command, given what is on a disk. -/
def Calls (arguments : List String) (d : Disk) (c : Call) : Prop :=
  (Frontend.read arguments).answerOn d.kind = .call c

/-- A command carries out the call that its arguments make. -/
theorem Calls.run_eq {arguments : List String} {m : Machine} {c : Call}
    (h : Calls arguments m.disk c) : (run arguments : Run Ending) m = (runCall c : Run _) m := by
  rw [run, Run.bind_apply, Inquiry.run_apply, h]

/-- What the user is told of the warnings about these settings. -/
def warningText (c : Call) (d : Disk) : String :=
  match configOn d c.config with
  | .error _ => ""
  | .ok config => Frontend.warn (Settings.Warning.ofLayers config c.entries)

/-- A call without a conflict has its settings made, is warned of what is in them, and has its files
converted. -/
theorem runCall_apply (c : Call) (m : Machine) :
    (runCall c : Run Ending) m =
      match c.conflict? with
      | some reason => (misuse reason : Run Ending) m
      | none =>
        match settingsOf c m.disk with
        | .error stop => stop.finish (m.told (warningText c m.disk))
        | .ok s => (convertFiles c s c.files : Run Ending) (m.told (warningText c m.disk)) := by
  rw [runCall]
  cases c.conflict? with
  | some reason => rfl
  | none =>
    dsimp only
    rw [Run.bind_apply, readConfig_apply, settingsOf, warningText]
    cases configOn m.disk c.config with
    | error e =>
      dsimp only
      rw [m.told_empty]
      rfl
    | ok config =>
      dsimp only
      rw [Run.bind_apply]
      cases Settings.layered config c.entries with
      | error f => rfl
      | ok s =>
        dsimp only
        split <;> rfl

/-- A call that ends well has its settings made and its files converted. -/
theorem exists_settings_of_done {arguments : List String} {c : Call} {m m' : Machine}
    (hcalls : Calls arguments m.disk c) (h : (run arguments : Run Ending) m = (.done, m')) :
    c.conflict? = none ∧ ∃ s, settingsOf c m.disk = .ok s ∧
      (convertFiles c s c.files : Run Ending) (m.told (warningText c m.disk)) = (.done, m') := by
  rw [hcalls.run_eq, runCall_apply] at h
  split at h
  · cases h
  · next hconflict =>
    refine ⟨hconflict, ?_⟩
    split at h
    · next stop _ =>
      obtain ⟨e, text, he, hfinish⟩ := stop.finish_apply
      rw [hfinish] at h
      exact absurd (congrArg Prod.fst h) he
    · next s hs => exact ⟨s, hs, h⟩

end Calls

end PixelUnit.Command
