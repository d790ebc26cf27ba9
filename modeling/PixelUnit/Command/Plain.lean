import PixelUnit.Command.Frontend
import PixelUnit.Command.Line

/-!
# A plain front end

A front end that understands the command lines of `PixelUnit.Command.Line`. Paths are looked at in
the order in which they are given, switches before files, and the first that cannot be used is told.
It shows what it is given as it is, in colours, and tells each warning once.
-/

namespace PixelUnit.Command.Plain

/-! ## Arguments -/

/-- Ends an inquiry: a command line cannot be carried out. -/
def misuse (e : Misuse) : Inquiry Request :=
  .answer (.misuse (Misuse.report e.message))

/-- Goes on if what is at a path can be used for an argument. -/
def check (path : String) (fault? : Kind → Option Misuse) (rest : Inquiry Request) :
    Inquiry Request :=
  .look path fun k =>
    match fault? k with
    | some e => misuse e
    | none => rest

/-- What is wrong with a file that an argument names: it must exist. -/
def existingFault? (argument path : String) : Kind → Option Misuse
  | .file => none
  | .directory => some (.directory argument path)
  | .absent => some (.noFile argument path)

/-- What is wrong with a file that is to be written: it must not be a directory. -/
def outputFault? (argument path : String) : Kind → Option Misuse
  | .directory => some (.directory argument path)
  | _ => none

/-- Goes on if the text of a parameter can be used. -/
def checkParameter (l : Line) (p : Parameter) (rest : Inquiry Request) : Inquiry Request :=
  match p, l.text? p with
  | .config, some path => check path (existingFault? p.label path) rest
  | .output, some path => check path (outputFault? p.label path) rest
  | _, _ => rest

/-- Goes on if a file can be converted. -/
def checkFile (path : String) (rest : Inquiry Request) : Inquiry Request :=
  check path (existingFault? "'FILES...'" path) rest

/-- The call that a command line makes. -/
def callOf (l : Line) : Call where
  files := l.files
  variableName := l.text? .variableName
  pathPattern := l.text? .pathPattern
  fallbackOrigin := l.flag? .fallbackOrigin
  selectorBlacklist := l.texts .selectorBlacklist
  propBlacklist := l.texts .propBlacklist
  ignoreMark := l.text? .ignoreMark
  replaces := l.flag? .replaces
  config := l.text? .config
  inPlace := l.has .inPlace
  output := l.text? .output
  verbose := l.has .verbose

/-- Makes the call of a command line whose files can be converted. -/
def callWithFiles (l : Line) : Inquiry Request :=
  if l.files.isEmpty then misuse .missingFiles
  else l.files.foldr checkFile (.answer (.call (callOf l)))

/-- Makes the call of a command line if all paths in it can be used. -/
def request (l : Line) : Inquiry Request :=
  l.parameters.foldr (checkParameter l) (callWithFiles l)

/-- Reads arguments. -/
def read (arguments : List String) : Inquiry Request :=
  match Line.ofArguments arguments with
  | .error e => misuse e
  | .ok l => if l.has .help then .answer (.print help) else request l

/-! ## Calls -/

section Calls

variable {kinds : String → Kind} {l : Line} {c : Call} {path : String} {rest : Inquiry Request}

theorem check_eq_call {fault? : Kind → Option Misuse}
    (h : (check path fault? rest).answerOn kinds = .call c) :
    fault? (kinds path) = none ∧ rest.answerOn kinds = .call c := by
  unfold check at h
  rw [Inquiry.answerOn] at h
  split at h
  · cases h
  · next hnone => exact ⟨hnone, h⟩

theorem eq_file_of_existingFault? {argument : String} {k : Kind}
    (h : existingFault? argument path k = none) : k = .file := by
  cases k with
  | file => rfl
  | directory | absent => cases h

theorem checkFiles_eq_call {files : List String}
    (h : (files.foldr checkFile rest).answerOn kinds = .call c) :
    (∀ path ∈ files, kinds path = .file) ∧ rest.answerOn kinds = .call c := by
  induction files with
  | nil => exact ⟨List.forall_mem_nil _, h⟩
  | cons path files ih =>
    obtain ⟨hpath, hfiles⟩ := check_eq_call h
    obtain ⟨hall, hrest⟩ := ih hfiles
    exact ⟨List.forall_mem_cons.2 ⟨eq_file_of_existingFault? hpath, hall⟩, hrest⟩

theorem checkParameter_eq_call {p : Parameter}
    (h : (checkParameter l p rest).answerOn kinds = .call c) : rest.answerOn kinds = .call c := by
  unfold checkParameter at h
  split at h
  · exact (check_eq_call h).2
  · exact (check_eq_call h).2
  · exact h

theorem checkParameter_config (h : l.text? .config = some path) :
    checkParameter l .config rest =
      check path (existingFault? Parameter.config.label path) rest := by
  simp only [checkParameter, h]

theorem checkParameter_output (h : l.text? .output = some path) :
    checkParameter l .output rest = check path (outputFault? Parameter.output.label path) rest := by
  simp only [checkParameter, h]

theorem checkParameters_eq_call {ps : List Parameter}
    (h : (ps.foldr (checkParameter l) rest).answerOn kinds = .call c) :
    (.config ∈ ps → ∀ path, l.text? .config = some path → kinds path = .file) ∧
      (.output ∈ ps → ∀ path, l.text? .output = some path → kinds path ≠ .directory) ∧
      rest.answerOn kinds = .call c := by
  induction ps with
  | nil => exact ⟨nofun, nofun, h⟩
  | cons p ps ih =>
    obtain ⟨hconfig, houtput, hrest⟩ := ih (checkParameter_eq_call h)
    refine ⟨fun hmem path hpath => ?_, fun hmem path hpath => ?_, hrest⟩
    · rcases List.mem_cons.1 hmem with rfl | hmem
      · rw [List.foldr_cons, checkParameter_config hpath] at h
        exact eq_file_of_existingFault? (check_eq_call h).1
      · exact hconfig hmem path hpath
    · rcases List.mem_cons.1 hmem with rfl | hmem
      · rw [List.foldr_cons, checkParameter_output hpath] at h
        intro hkind
        have hnone := (check_eq_call h).1
        rw [hkind] at hnone
        cases hnone
      · exact houtput hmem path hpath

theorem mem_parameters {p : Parameter} (h : l.text? p = some path) : p ∈ l.parameters := by
  rw [Line.parameters, List.mem_eraseDups, List.mem_filterMap]
  obtain ⟨g, hg, hp⟩ := List.mem_filterMap.1 (List.mem_of_getLast? h)
  refine ⟨g, hg, ?_⟩
  cases g with
  | flag => cases hp
  | text q t =>
    dsimp only at hp ⊢
    split at hp
    · next hq => rw [hq]
    · cases hp

/-- A call is made of a command line whose paths are in order. -/
theorem checked_of_read {arguments : List String}
    (h : (read arguments).answerOn kinds = .call c) : c.Checked kinds := by
  unfold read at h
  split at h
  · cases h
  next l hline =>
  split at h
  · cases h
  obtain ⟨hconfig, houtput, h⟩ := checkParameters_eq_call h
  unfold callWithFiles at h
  split at h
  · cases h
  next hne =>
  obtain ⟨hfiles, h⟩ := checkFiles_eq_call h
  cases h
  exact
    { nonempty := fun hnil => hne (List.isEmpty_iff.2 hnil)
      files := hfiles
      config := fun path hpath => hconfig (mem_parameters hpath) path hpath
      output := fun path hpath => houtput (mem_parameters hpath) path hpath }

end Calls

/-! ## What is shown -/

/-- The marks for colours, and what a terminal is sent for them. -/
def colors : List (String × String) :=
  [("[green]", "\x1b[38;2;0;128;0m"), ("[yellow]", "\x1b[38;2;255;255;0m")]

/-- A line whose colour is marked at its start. -/
def display (line : String) : Option String :=
  colors.findSome? fun (mark, code) =>
    if mark.toList.isPrefixOf line.toList then
      some (code ++ String.ofList (line.toList.drop mark.length) ++ "\n")
    else none

/-- Each warning on a line of its own. -/
def warn (ws : List Settings.Warning) : String :=
  String.join (ws.eraseDups.map fun w => "FutureWarning: " ++ w.warning.message ++ "\n")

end Plain

/-- The plain front end. -/
abbrev plain : Frontend where
  read := Plain.read
  echo := some
  misuse := Misuse.report
  refusal reason := "Error: " ++ reason ++ "\n"
  display := Plain.display
  warn := Plain.warn
  checked := Plain.checked_of_read
  refusal_eq _ := rfl
  warn_nil := rfl

end PixelUnit.Command
