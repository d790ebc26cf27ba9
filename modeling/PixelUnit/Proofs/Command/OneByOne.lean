import PixelUnit.Proofs.Command.InPlace

/-!
# One file at a time

A command over several files does what commands over one file each do, one after the other up to
the first that does not end well (`run_alike_runEach`). Nothing is carried from file to file but the
disk and what has been written: what is done with a file does not depend on what has been reported
(`Blind`), what a command does before its first file depends on its call and on the configuration
file alone (`settingsOf_congr`), and a file that is handled leaves all others as they are
(`Disk.SameBut`). The reports differ in one thing, that each command tells the warnings about the
settings anew (`not_alike_warnedFiles`).
-/

namespace PixelUnit.Command

/-! ## Runs that do not depend on reports -/

section Blind

variable {α β : Type}

/-- A machine on which something else has been reported. -/
def Machine.reporting (m : Machine) (err : String) : Machine :=
  { m with err }

@[simp]
theorem Machine.disk_reporting (m : Machine) (err : String) : (m.reporting err).disk = m.disk := rfl

/-- A run before which something is told. -/
def telling (text : String) (x : Run α) : Run α :=
  fun m => x (m.told text)

/-- What has been reported plays no part in a run; it reports the same in any case. -/
def Blind (x : Run α) : Prop :=
  ∀ m, ∃ text, ∀ err, x (m.reporting err) = ((x m).1, (x m).2.reporting (err ++ text))

theorem blind_of_keeps {x : Run α}
    (h : ∀ m err, x (m.reporting err) = ((x m).1, (x m).2.reporting err)) : Blind x :=
  fun m => ⟨"", fun err => by rw [h, String.append_empty]⟩

theorem blind_pure (a : α) : Blind (pure a) :=
  blind_of_keeps fun _ _ => rfl

theorem blind_look (path : String) : Blind (Host.look path : Run Entry) :=
  blind_of_keeps fun _ _ => rfl

theorem blind_print (text : String) : Blind (Host.print text : Run Unit) :=
  blind_of_keeps fun _ _ => rfl

theorem blind_save (path : String) (bytes : ByteArray) :
    Blind (Host.save path bytes : Run (Except Obstacle Unit)) := by
  refine blind_of_keeps fun m err => ?_
  simp only [Host.save, Machine.disk_reporting]
  cases m.disk.save path bytes <;> rfl

theorem blind_tell (text : String) : Blind (Host.tell text : Run Unit) :=
  fun _ => ⟨text, fun _ => rfl⟩

/-- One blind action behind another is blind. -/
theorem Blind.bind {x : Run α} {f : α → Run β} (hx : Blind x) (hf : ∀ a, Blind (f a)) :
    Blind (x >>= f) := by
  intro m
  obtain ⟨first, hfirst⟩ := hx m
  obtain ⟨second, hsecond⟩ := hf (x m).1 (x m).2
  refine ⟨first ++ second, fun err => ?_⟩
  rw [Run.bind_apply, Run.bind_apply, hfirst, hsecond, String.append_assoc]

theorem blind_tellLog (verbose : Bool) (log : Log) : Blind (tellLog verbose log : Run Unit) :=
  fun m => ⟨logText verbose log, fun err => by rw [tellLog_apply, tellLog_apply]; rfl⟩

theorem blind_refuse [Frontend] (reason : String) : Blind (refuse reason : Run Ending) :=
  (blind_tell _).bind fun _ => blind_pure _

/-- Handing a text over is blind. -/
theorem blind_deliver [Frontend] (target : Option String) (text : String) :
    Blind (deliver target text : Run _) := by
  unfold deliver
  cases target with
  | none =>
    cases Frontend.echo text with
    | none => exact blind_pure _
    | some shown => exact (blind_print _).bind fun _ => blind_pure _
  | some path => exact (blind_save _ _).bind fun _ => blind_pure _

/-- Showing a report is blind. -/
theorem blind_report [Frontend] (path : String) (target : Option String) (count : Nat) :
    Blind (report path target count : Run Ending) := by
  unfold report
  split
  · exact blind_pure _
  · exact (blind_tell _).bind fun _ => blind_pure _

/-- What is done with a file does not depend on what has been reported. -/
theorem blind_convertFile [Frontend] [Sheet.Codecs] (c : Call) (s : Settings) (path : String) :
    Blind (convertFile c s path : Run Ending) := by
  unfold convertFile
  refine (blind_look path).bind fun e => ?_
  cases e with
  | directory | absent => exact blind_pure _
  | file bytes =>
    refine (blind_tellLog _ _).bind fun _ => ?_
    split
    · exact blind_pure _
    · exact blind_pure _
    · exact blind_refuse _
    · split
      · exact blind_pure _
      · refine (blind_tellLog _ _).bind fun _ => (blind_deliver _ _).bind fun r => ?_
        cases r with
        | error e => exact blind_pure _
        | ok => exact blind_report _ _ _

/-- Doing one thing after the other, and telling something before each of them: both end alike, and
the reports are the same but for what is told before each. -/
theorem inTurn_telling {x : String → Run Ending} (hx : ∀ path, Blind (x path)) (text : String)
    (paths : List String) (m : Machine) :
    ∃ e m' reports, ∀ err,
      inTurn (paths.map x) (m.reporting err) =
          (e, Machine.reporting m' (err ++ String.join reports)) ∧
        inTurn (paths.map fun path => telling text (x path)) (m.reporting err) =
          (e, Machine.reporting m' (err ++ String.join (reports.map (text ++ ·)))) := by
  induction paths generalizing m with
  | nil =>
    refine ⟨.done, m, [], fun err => ?_⟩
    simp only [List.map_nil, String.join_nil, String.append_empty]
    exact ⟨rfl, rfl⟩
  | cons path paths ih =>
    obtain ⟨first, hfirst⟩ := hx path m
    have htold (err : String) : telling text (x path) (m.reporting err) =
        ((x path m).1, (x path m).2.reporting (err ++ (text ++ first))) := by
      rw [← String.append_assoc]
      exact hfirst (err ++ text)
    by_cases hend : (x path m).1 = .done
    · obtain ⟨e, m', reports, hrest⟩ := ih (x path m).2
      rw [hend] at hfirst htold
      refine ⟨e, m', first :: reports, fun err => ⟨?_, ?_⟩⟩
      · rw [List.map_cons, inTurn_cons_of_done (hfirst err), (hrest (err ++ first)).1,
          String.join_cons, String.append_assoc]
      · rw [List.map_cons, inTurn_cons_of_done (htold err), (hrest (err ++ (text ++ first))).2,
          List.map_cons, String.join_cons, String.append_assoc]
    · refine ⟨(x path m).1, (x path m).2, [first], fun err => ⟨?_, ?_⟩⟩
      · rw [List.map_cons, inTurn_cons_of_ne_done (hfirst err) hend, String.join_cons,
          String.join_nil, String.append_empty]
      · rw [List.map_cons, inTurn_cons_of_ne_done (htold err) hend, List.map_singleton,
          String.join_cons, String.join_nil, String.append_empty]

end Blind

/-! ## Before the first file -/

section Calls

variable {c : Call} {s : Settings} {m m' : Machine} {d d' : Disk} {paths : List String}

/-- Two disks have the same at the path of a call's configuration file. -/
def SameConfig (c : Call) (d d' : Disk) : Prop :=
  ∀ path, c.config = some path → d'.entry path = d.entry path

/-- The configuration is the same on disks that have the same at its path. -/
theorem configOn_congr (h : SameConfig c d d') : configOn d' c.config = configOn d c.config := by
  cases hpath : c.config with
  | none => rfl
  | some path => rw [configOn, configOn, h path hpath]

/-- The settings depend on the call and the configuration file. -/
theorem settingsOf_congr [Regex.CharacterNames] (h : SameConfig c d d') :
    settingsOf c d' = settingsOf c d := by
  rw [settingsOf, settingsOf, configOn_congr h]

/-- So do the warnings about them. -/
theorem warningText_congr [Frontend] [Regex.CharacterNames] (h : SameConfig c d d') :
    warningText c d' = warningText c d := by
  rw [warningText, warningText, configOn_congr h]

/-- There is the same kind of thing at every path of a disk on which only files have changed. -/
theorem Disk.SameBut.kind_eq (h : d.SameBut paths d') (hfiles : d.AllFiles paths) :
    d'.kind = d.kind := by
  funext other
  by_cases hother : ∃ path ∈ paths, d.resolve path = d.resolve other
  · obtain ⟨path, hpath, hsame⟩ := hother
    have hfile : ∃ bytes, d.entry other = .file bytes := by
      rw [entry, ← hsame, ← entry]
      exact hfiles path hpath
    rw [kind_eq_file_iff.2 hfile, kind_eq_file_iff.2 (h.isFile other hfile)]
  · rw [kind, kind, h.entry_eq other fun path hpath hsame => hother ⟨path, hpath, hsame⟩]

/-- What arguments ask for depends on the kinds of what is at paths. -/
theorem Calls.congr [Frontend] {arguments : List String} (h : Calls arguments d c)
    (hkind : d'.kind = d.kind) : Calls arguments d' c := by
  rw [Calls, hkind]
  exact h

/-! ## One file -/

/-- Without another place for the results, only the file itself is saved. -/
theorem Call.eq_of_target? (hout : c.output = none) {path target : String}
    (h : c.target? path = some target) : target = path := by
  unfold target? at h
  split at h
  · exact (Option.some.inj h).symm
  · rw [hout] at h
    cases h

/-- A result that is handed over changes nothing but the file that it was made from. -/
theorem Delivered.sameBut [Frontend] {path text : String} {bytes : ByteArray}
    (h : Delivered (c.target? path) text m m') (hentry : m.disk.entry path = .file bytes)
    (hout : c.output = none) :
    m.disk.SameBut [path] m'.disk := by
  cases h with
  | printed => exact .refl _ _
  | saved htarget hsave =>
    rw [c.eq_of_target? hout htarget] at hsave
    obtain ⟨p, hp, hover⟩ := Disk.savedOver hentry hsave
    exact .of_savedOver hp hover

section Files

variable [Frontend] [Sheet.Codecs] {path : String} {bytes : ByteArray}

/-- A file that is handled is the only one that changes. -/
theorem Handled.sameBut {e : Ending} (h : Handled c s path bytes m e m')
    (hentry : m.disk.entry path = .file bytes) (hout : c.output = none) :
    m.disk.SameBut [path] m'.disk := by
  cases h with
  | notText | halfPair | fault | undelivered => exact .refl _ _
  | notReported _ hdelivered => exact hdelivered.sameBut hentry hout
  | reported _ hdelivered => exact hdelivered.sameBut hentry hout

/-- The disk is as it was if a file is not converted, unless only the report on it is missing. -/
theorem Handled.disk_eq {e : Ending} (h : Handled c s path bytes m e m') (he : e ≠ .done)
    (hreport : e ≠ .crashed .notReported) : m'.disk = m.disk := by
  cases h with
  | notText | halfPair | fault | undelivered => rfl
  | notReported => exact absurd rfl hreport
  | reported => exact absurd rfl he

end Files

/-- Things done to files, each of which changes nothing but its file, change nothing else. -/
theorem sameBut_inTurn {x : String → Run Ending}
    (hx : ∀ path ∈ paths, ∀ m : Machine, (∃ bytes, m.disk.entry path = .file bytes) →
      m.disk.SameBut [path] (x path m).2.disk)
    (hfiles : m.disk.AllFiles paths) :
    m.disk.SameBut paths (inTurn (paths.map x) m).2.disk := by
  induction paths generalizing m with
  | nil => exact .refl _ _
  | cons path paths ih =>
    obtain ⟨hfirst, hrest⟩ := List.forall_mem_cons.1 hx
    obtain ⟨hfile, hothers⟩ := List.forall_mem_cons.1 hfiles
    have hsame := hfirst m hfile
    rw [List.map_cons, inTurn_cons]
    rcases hrun : x path m with ⟨ending, m₁⟩
    rw [hrun] at hsame
    cases ending with
    | refused | misused | crashed | halfPair => exact hsame.cons (.refl _ _)
    | done => exact hsame.cons (ih hrest fun p hp => hsame.isFile p (hothers p hp))

/-- Files that are converted without another place for the results change nothing else. -/
theorem sameBut_convertFiles [Frontend] [Sheet.Codecs] (hout : c.output = none)
    (hfiles : m.disk.AllFiles paths) :
    m.disk.SameBut paths ((convertFiles c s paths : Run Ending) m).2.disk := by
  rw [convertFiles_eq_inTurn]
  refine sameBut_inTurn (fun path _ m => ?_) hfiles
  rintro ⟨bytes, hbytes⟩
  exact (handled_convertFile c s hbytes).sameBut hbytes hout

/-! ## Commands -/

section Prepared

variable [Frontend] {each : String → List String}

/-- What has to stay as it is while commands over one file each are run: the files are all there,
the configuration file is none of them, and the arguments call the command with the file. -/
structure Ready (c : Call) (each : String → List String) (d : Disk) (paths : List String) :
    Prop where
  files : d.AllFiles paths
  config : ∀ k, c.config = some k → ∀ path ∈ paths, d.resolve path ≠ d.resolve k
  calls : ∀ path ∈ paths, Calls (each path) d { c with files := [path] }

namespace Ready

theorem sameConfig {path : String} (h : Ready c each d (path :: paths))
    (hsame : d.SameBut [path] d') :
    SameConfig c d d' :=
  fun k hk => hsame.entry_eq k
    (List.forall_mem_singleton.2 (h.config k hk path List.mem_cons_self))

/-- A command over some of the files leaves what the others need. -/
theorem rest {before after : List String} (h : Ready c each d (before ++ after))
    (hsame : d.SameBut before d') : Ready c each d' after where
  files path hpath := hsame.isFile path (h.files path (List.mem_append_right _ hpath))
  config k hk path hpath := by
    rw [hsame.resolve_eq, hsame.resolve_eq]
    exact h.config k hk path (List.mem_append_right _ hpath)
  calls path hpath := (h.calls path (List.mem_append_right _ hpath)).congr
    (hsame.kind_eq fun p hp => h.files p (List.mem_append_left _ hp))

theorem tail {path : String} (h : Ready c each d (path :: paths)) (hsame : d.SameBut [path] d') :
    Ready c each d' paths :=
  rest (show Ready c each d ([path] ++ paths) from h) hsame

theorem front {before after : List String} (h : Ready c each d (before ++ after)) :
    Ready c each d before where
  files path hpath := h.files path (List.mem_append_left _ hpath)
  config k hk path hpath := h.config k hk path (List.mem_append_left _ hpath)
  calls path hpath := h.calls path (List.mem_append_left _ hpath)

end Ready

end Prepared

section Commands

variable [Frontend] [Regex.CharacterNames] [Sheet.Codecs] {arguments : List String} {path : String}
  {each : String → List String}

/-- Runs commands one after the other, up to the first that does not end well. -/
def runEach (commands : List (List String)) : Run Ending :=
  inTurn (commands.map run)

theorem runEach_map (each : String → List String) (paths : List String) :
    runEach (paths.map each) = inTurn (paths.map fun path => run (each path)) :=
  congrArg inTurn List.map_map

/-- Without another place for the results, a call makes its settings and converts its files. -/
theorem run_apply (hcalls : Calls arguments m.disk c) (hout : c.output = none) :
    (run arguments : Run Ending) m =
      match settingsOf c m.disk with
      | .error stop => stop.finish (m.told (warningText c m.disk))
      | .ok s => inTurn (c.files.map (convertFile c s)) (m.told (warningText c m.disk)) := by
  have hconflict : c.conflict? = none := by
    rw [Call.conflict?, hout]
    rfl
  rw [hcalls.run_eq, runCall_apply, hconflict]
  cases settingsOf c m.disk with
  | error stop => rfl
  | ok s =>
    dsimp only
    rw [convertFiles_eq_inTurn]

/-- So does a call for one of the files; its settings and the warnings about them are the same. -/
theorem run_alone (hcalls : Calls arguments m.disk { c with files := [path] })
    (hout : c.output = none) :
    (run arguments : Run Ending) m =
      match settingsOf c m.disk with
      | .error stop => stop.finish (m.told (warningText c m.disk))
      | .ok s => telling (warningText c m.disk) (convertFile c s path) m := by
  have hsettings : settingsOf { c with files := [path] } m.disk = settingsOf c m.disk := rfl
  rw [run_apply hcalls hout, hsettings]
  cases settingsOf c m.disk with
  | error stop => rfl
  | ok s =>
    dsimp only
    exact inTurn_singleton _ _

/-- A command over one file leaves all others as they are, and that one as well if it does not end
well, unless only the report on it is missing. -/
theorem sameBut_alone (hcalls : Calls arguments m.disk { c with files := [path] })
    (hout : c.output = none) (hfile : ∃ bytes, m.disk.entry path = .file bytes) :
    m.disk.SameBut [path] ((run arguments : Run Ending) m).2.disk ∧
      (((run arguments : Run Ending) m).1 ≠ .done →
        ((run arguments : Run Ending) m).1 ≠ .crashed .notReported →
          ((run arguments : Run Ending) m).2.disk = m.disk) := by
  obtain ⟨bytes, hentry⟩ := hfile
  rw [run_alone hcalls hout]
  cases settingsOf c m.disk with
  | error stop =>
    obtain ⟨e, text, -, hfinish⟩ := stop.finish_apply
    dsimp only
    rw [hfinish]
    exact ⟨.refl _ _, fun _ _ => rfl⟩
  | ok s =>
    have h := handled_convertFile c s (m := m.told (warningText c m.disk)) hentry
    exact ⟨h.sameBut hentry hout, h.disk_eq⟩

/-! ## All files -/

namespace Ready

/-- The command over the first file leaves all others as they are. -/
theorem sameBut_head (h : Ready c each m.disk (path :: paths)) (hout : c.output = none) :
    m.disk.SameBut [path] ((run (each path) : Run Ending) m).2.disk :=
  (sameBut_alone (h.calls path List.mem_cons_self) hout (h.files path List.mem_cons_self)).1

/-- With settings, commands over one file each tell the warnings and convert their file, one after
the other. -/
theorem runEach_eq (h : Ready c each m.disk paths) (hout : c.output = none)
    (hs : settingsOf c m.disk = .ok s) :
    runEach (paths.map each) m =
      inTurn (paths.map fun path => telling (warningText c m.disk) (convertFile c s path)) m := by
  rw [runEach_map]
  generalize hwarn : warningText c m.disk = text
  induction paths generalizing m with
  | nil => rfl
  | cons path paths ih =>
    have hsame := h.sameBut_head hout
    have halone : (run (each path) : Run Ending) m = telling text (convertFile c s path) m := by
      rw [run_alone (h.calls path List.mem_cons_self) hout, hs, hwarn]
    rw [List.map_cons, List.map_cons, inTurn_cons, inTurn_cons, ← halone]
    rcases hrun : (run (each path) : Run Ending) m with ⟨ending, m₁⟩
    rw [hrun] at hsame
    cases ending with
    | refused | misused | crashed | halfPair => rfl
    | done =>
      have hconfig : SameConfig c m.disk m₁.disk := h.sameConfig hsame
      exact ih (h.tail hsame) ((settingsOf_congr hconfig).trans hs)
        ((warningText_congr hconfig).trans hwarn)

/-- A command over all files and commands over one each end alike; the reports differ in the
warnings about the settings. -/
theorem alike (h : Ready c each m.disk c.files) (hcalls : Calls arguments m.disk c)
    (hout : c.output = none) (hne : c.files ≠ []) :
    ∃ e m' reports,
      (run arguments : Run Ending) m =
          (e, Machine.reporting m' (m.err ++ warningText c m.disk ++ String.join reports)) ∧
        runEach (c.files.map each) m =
          (e, Machine.reporting m'
            (m.err ++ String.join (reports.map (warningText c m.disk ++ ·)))) := by
  rw [run_apply hcalls hout]
  cases hs : settingsOf c m.disk with
  | ok s =>
    obtain ⟨e, m', reports, hboth⟩ :=
      inTurn_telling (blind_convertFile c s) (warningText c m.disk) c.files m
    exact ⟨e, m', reports, (hboth _).1, (h.runEach_eq hout hs).trans (hboth _).2⟩
  | error stop =>
    -- the first command ends like the one over all files, before it comes to its file
    obtain ⟨first, rest, hfirst⟩ := List.exists_cons_of_ne_nil hne
    have halone := run_alone (h.calls first (hfirst ▸ List.mem_cons_self)) hout
    obtain ⟨e, text, he, hfinish⟩ := stop.finish_apply
    rw [hs] at halone
    dsimp only at halone ⊢
    rw [hfinish] at halone ⊢
    refine ⟨e, m, [text], ?_, ?_⟩
    · rw [String.join_cons, String.join_nil, String.append_empty]
      rfl
    · rw [hfirst, runEach_map, List.map_cons, inTurn_cons_of_ne_done halone he,
        List.map_singleton, String.join_cons, String.join_nil, String.append_empty,
        Machine.told_told]
      rfl

end Ready

end Commands

end Calls

section Examples

attribute [local instance] plain Regex.CharacterNames.none Sheet.Codecs.none

end Examples

end PixelUnit.Command
