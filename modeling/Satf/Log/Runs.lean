import Satf.Lib.Transition
import Satf.Log.Clock
import Satf.Measure.Task
import Mathlib.Data.String.Basic

/-!
# Runs of the program from one working directory

Every run of the program calls `log_init("logs/")` and then `log()`. The runs
share the file system, start whenever they like and overlap; what a local
clock shows is up to the clock. A step of the system is one file system
operation, or one reading of the clock, of one run.

`create_directory` is silent when the directory is there already, and the
check after it (`exists`) is content with an old one, so `log_init` may return
true without having created anything; `Created` records what it did.

> `runs_are_separate`: in every sequence of steps in which a run only creates
> a run directory when no directory has its name, a run whose `log_init`
> returned true has created its directory, every character below it was
> written by that run, and no step of another run changes a file there.
> `separate_of_readings`: in particular where different runs read different
> times, to the second, and no directory was named after one before they
> started.
-/

namespace Satf.Log

open Satf.Lib Satf.Measure

/-! ## States -/

/-- A character of a log file with the run that wrote it, or none if it was
there before. -/
structure Written (ρ : Type) where
  author : Option ρ
  char : Char

/-- The name of `g_log_dir` and whether `create_directory` created it. -/
structure Created where
  name : String
  created : Bool
  deriving DecidableEq

/-- Where a run is in `log_init`, or in a call of `log()` after it. -/
inductive Stage where
  | start
  | logsMade
  | named (name : String)
  | runDirMade (d : Created)
  /-- `log_init` returned `ok`, which `main` ignores -/
  | running (d : Created) (ok : Bool)
  | dataDirMade (d : Created) (ok : Bool) (a : Algorithm) (traits : DataSet) (line : List Char)
  | writing (d : Created) (ok : Bool) (a : Algorithm) (traits : DataSet) (rest : List Char)
  /-- an exception of the file system ended the run -/
  | threw

/-- The runs and the file system they share. -/
structure Runs (ρ : Type) where
  stage : ρ → Stage
  fs : FileSystem (Written ρ)

variable {ρ : Type}

/-- The state before any run has started. -/
def Runs.init (fs : FileSystem (Written ρ)) : Runs ρ where
  stage _ := .start
  fs := fs

/-! ## Steps -/

/-- One operation of a run, with what the clock or the caller supplies. -/
inductive RunAct where
  | createLogs
  | readClock (t : LocalTime)
  | createRunDir
  | checkExists
  | createDataDir (a : Algorithm) (traits : DataSet) (size : Int) (timeMsecs count : UInt32)
  | openFile
  | write (k : Nat)
  | leaveLog

/-- `logs/` in the working directory. -/
def logsDir (cwd : Path) : Path := "logs" :: cwd

/-- The directory of a run. -/
def runDir (cwd : Path) (name : String) : Path := name :: logsDir cwd

/-- `create_directory`, which throws where it cannot create one. -/
def createOrThrow (fs : FileSystem (Written ρ)) (p : Path) (next : Bool → Stage) :
    Stage × FileSystem (Written ρ) :=
  match fs.createDirectory p with
  | some (fs', created) => (next created, fs')
  | none => (.threw, fs)

/-- One operation of run `r`. -/
def advance (cwd : Path) (r : ρ) (fs : FileSystem (Written ρ)) :
    Stage → RunAct → Option (Stage × FileSystem (Written ρ))
  | .start, .createLogs => some (createOrThrow fs (logsDir cwd) fun _ => .logsMade)
  | .logsMade, .readClock t => some (.named (String.ofList (now t)), fs)
  | .named name, .createRunDir =>
    some (createOrThrow fs (runDir cwd name) fun created => .runDirMade ⟨name, created⟩)
  | .runDirMade d, .checkExists =>
    some (.running d (fs.node (runDir cwd d.name)).isSome, fs)
  | .running d ok, .createDataDir a traits size timeMsecs count =>
    some (createOrThrow fs (traits.name :: runDir cwd d.name) fun _ =>
      .dataDirMade d ok a traits (logLine size timeMsecs count))
  | .dataDirMade d ok a traits line, .openFile =>
    some (.writing d ok a traits line, fs.openAppend (logFile (runDir cwd d.name) a traits))
  | .writing d ok a traits rest, .write k =>
    if 0 < k ∧ k ≤ rest.length then
      some (.writing d ok a traits (rest.drop k),
        fs.append (logFile (runDir cwd d.name) a traits)
          ((rest.take k).map fun c => ⟨some r, c⟩))
    else none
  | .writing d ok _ _ [], .leaveLog => some (.running d ok, fs)
  | _, _ => none

/-- One step of the system: run `ra.1` does `ra.2`. -/
def step [DecidableEq ρ] (cwd : Path) (s : Runs ρ) (ra : ρ × RunAct) : Option (Runs ρ) :=
  (advance cwd ra.1 s.fs (s.stage ra.1) ra.2).map fun next =>
    { stage := Function.update s.stage ra.1 next.1, fs := next.2 }

/-- Where a run creates its directory, there is none of that name yet. A file
of that name is no harm: `create_directory` throws. -/
def Untaken (cwd : Path) (s : Runs ρ) (ra : ρ × RunAct) : Prop :=
  match s.stage ra.1, ra.2 with
  | .named name, .createRunDir => s.fs.isDir (runDir cwd name) = false
  | _, _ => True

instance (cwd : Path) (s : Runs ρ) (ra : ρ × RunAct) : Decidable (Untaken cwd s ra) := by
  unfold Untaken
  split <;> infer_instance

/-! ## What separate runs are -/

/-- The run's directory, from its creation on. -/
def Stage.dir : Stage → Option Created
  | .runDirMade d => some d
  | .running d _ => some d
  | .dataDirMade d _ _ _ _ => some d
  | .writing d _ _ _ _ => some d
  | _ => none

/-- What `log_init` returned, once it has. -/
def Stage.returned : Stage → Option (Created × Bool)
  | .running d ok => some (d, ok)
  | .dataDirMade d ok _ _ _ => some (d, ok)
  | .writing d ok _ _ _ => some (d, ok)
  | _ => none

/-- Results are kept per run: whenever `log_init` has returned true, the call
created the directory, everything below it is the run's own, and no step of
another run changes the contents of a file below it. -/
structure Separate [DecidableEq ρ] (cwd : Path) (s : Runs ρ) : Prop where
  created : ∀ r d, (s.stage r).returned = some (d, true) → d.created = true
  own : ∀ r d, (s.stage r).returned = some (d, true) →
    ∀ p, ∀ x ∈ s.fs.content (p ++ runDir cwd d.name), x.author = some r
  undisturbed : ∀ r d, (s.stage r).returned = some (d, true) →
    ∀ r' a s', r' ≠ r → step cwd s (r', a) = some s' →
      ∀ p, s'.fs.content (p ++ runDir cwd d.name) = s.fs.content (p ++ runDir cwd d.name)

/-! ## What one operation can do -/

variable {cwd : Path} {r : ρ} {fs fs' : FileSystem (Written ρ)} {g g' : Stage} {a : RunAct}

/-- Creating a directory does not touch contents, whether it works or not. -/
theorem createOrThrow_cases {p : Path} {next : Bool → Stage}
    (h : createOrThrow fs p next = (g', fs')) :
    fs.KeepsDirs fs' ∧ (∀ q, fs'.content q = fs.content q) ∧
      (g' = .threw ∨ ∃ created, fs.createDirectory p = some (fs', created) ∧ g' = next created) := by
  unfold createOrThrow at h
  split at h
  next made created hcreate =>
    cases h
    exact ⟨FileSystem.createDirectory_keepsDirs hcreate,
      FileSystem.createDirectory_content hcreate, .inr ⟨created, hcreate, rfl⟩⟩
  next =>
    cases h
    exact ⟨fun _ hd => hd, fun _ => rfl, .inl rfl⟩

/-- Everything one operation can do: leave the run's directory and all
contents as they are, create the run's directory, or append to a file of
the run. -/
theorem advance_cases (h : advance cwd r fs g a = some (g', fs')) :
    fs.KeepsDirs fs' ∧
    (((g'.dir = g.dir ∨ g'.dir = none) ∧ ∀ q, fs'.content q = fs.content q) ∨
    (∃ name created, g = .named name ∧ a = .createRunDir ∧ g'.dir = some ⟨name, created⟩ ∧
      fs.createDirectory (runDir cwd name) = some (fs', created)) ∨
    ∃ d alg traits piece, g.dir = some d ∧ g'.dir = some d ∧ (∀ x ∈ piece, x.author = some r) ∧
      fs' = fs.append (logFile (runDir cwd d.name) alg traits) piece) := by
  unfold advance at h
  split at h
  next =>
    obtain ⟨hkeep, hcontent, rfl | ⟨created, -, rfl⟩⟩ := createOrThrow_cases (Option.some.inj h)
    · exact ⟨hkeep, .inl ⟨.inr rfl, hcontent⟩⟩
    · exact ⟨hkeep, .inl ⟨.inr rfl, hcontent⟩⟩
  next t =>
    cases h
    exact ⟨fun _ hd => hd, .inl ⟨.inl rfl, fun _ => rfl⟩⟩
  next name =>
    obtain ⟨hkeep, hcontent, rfl | ⟨created, hcreate, rfl⟩⟩ :=
      createOrThrow_cases (Option.some.inj h)
    · exact ⟨hkeep, .inl ⟨.inr rfl, hcontent⟩⟩
    · exact ⟨hkeep, .inr (.inl ⟨name, created, rfl, rfl, rfl, hcreate⟩)⟩
  next d =>
    cases h
    exact ⟨fun _ hd => hd, .inl ⟨.inl rfl, fun _ => rfl⟩⟩
  next d ok alg traits size timeMsecs count =>
    obtain ⟨hkeep, hcontent, rfl | ⟨created, -, rfl⟩⟩ := createOrThrow_cases (Option.some.inj h)
    · exact ⟨hkeep, .inl ⟨.inr rfl, hcontent⟩⟩
    · exact ⟨hkeep, .inl ⟨.inl rfl, hcontent⟩⟩
  next d ok alg traits line =>
    cases h
    exact ⟨fs.openAppend_keepsDirs _, .inl ⟨.inl rfl, fs.openAppend_content _⟩⟩
  next d ok alg traits rest k =>
    split at h
    next =>
      cases h
      refine ⟨fs.append_keepsDirs _ _, .inr (.inr ⟨d, alg, traits, _, rfl, rfl, ?_, rfl⟩)⟩
      intro x hx
      obtain ⟨c, -, rfl⟩ := List.mem_map.mp hx
      rfl
    next => exact absurd h (by simp)
  next d ok alg traits =>
    cases h
    exact ⟨fun _ hd => hd, .inl ⟨.inl rfl, fun _ => rfl⟩⟩
  next => exact absurd h (by simp)

/-! ## The invariant -/

/-- Every run with a directory created it, no two have the same, and whatever
is below it is the run's own. -/
structure RunsInv (cwd : Path) (s : Runs ρ) : Prop where
  created : ∀ r d, (s.stage r).dir = some d → d.created = true
  there : ∀ r d, (s.stage r).dir = some d → s.fs.node (runDir cwd d.name) = some .dir
  apart : ∀ r r' d d', (s.stage r).dir = some d → (s.stage r').dir = some d' → r ≠ r' →
    d.name ≠ d'.name
  own : ∀ r d, (s.stage r).dir = some d →
    ∀ p, ∀ x ∈ s.fs.content (p ++ runDir cwd d.name), x.author = some r

theorem init_runsInv (cwd : Path) (fs : FileSystem (Written ρ)) :
    RunsInv cwd (Runs.init fs) where
  created _ _ h := absurd h (by simp [Runs.init, Stage.dir])
  there _ _ h := absurd h (by simp [Runs.init, Stage.dir])
  apart _ _ _ _ h := absurd h (by simp [Runs.init, Stage.dir])
  own _ _ h := absurd h (by simp [Runs.init, Stage.dir])

/-- A log file of one run directory is not below another. -/
theorem logFile_ne_below {name name' : String} (hne : name ≠ name') (alg : Algorithm)
    (traits : DataSet) (p : Path) :
    p ++ runDir cwd name' ≠ logFile (runDir cwd name) alg traits := by
  intro h
  have heq : p ++ runDir cwd name' = [alg.logName, traits.name] ++ runDir cwd name := h
  have hdir := (List.append_inj' heq (by simp [runDir])).2
  exact hne (List.cons.inj hdir).1.symm

/-- Every run still has the directory it had, if any, and what is below is
its own. -/
theorem RunsInv.kept {s s' : Runs ρ} (hinv : RunsInv cwd s) (hkeep : s.fs.KeepsDirs s'.fs)
    (hold : ∀ r d, (s'.stage r).dir = some d → (s.stage r).dir = some d)
    (hown : ∀ r d, (s.stage r).dir = some d →
      ∀ p, ∀ x ∈ s'.fs.content (p ++ runDir cwd d.name), x.author = some r) : RunsInv cwd s' where
  created r d h := hinv.created r d (hold r d h)
  there r d h := hkeep _ (hinv.there r d (hold r d h))
  apart r₁ r₂ d₁ d₂ h₁ h₂ := hinv.apart r₁ r₂ d₁ d₂ (hold r₁ d₁ h₁) (hold r₂ d₂ h₂)
  own r d h := hown r d (hold r d h)

variable [DecidableEq ρ]

/-- A step, taken apart. -/
theorem step_eq_some {s s' : Runs ρ} (h : step cwd s (r, a) = some s') :
    advance cwd r s.fs (s.stage r) a = some (s'.stage r, s'.fs) ∧
      ∀ r', r' ≠ r → s'.stage r' = s.stage r' := by
  simp only [step, Option.map_eq_some_iff] at h
  obtain ⟨next, hnext, rfl⟩ := h
  refine ⟨by simp only [Function.update_self]; exact hnext, ?_⟩
  intro r' hr'
  exact Function.update_of_ne hr' ..

/-- A run has created its directory. The name was free, so nobody else has it
and nothing is below it. -/
theorem RunsInv.dir_created {s s' : Runs ρ} {name : String} {created : Bool}
    (hinv : RunsInv cwd s) (hnone : s.fs.node (runDir cwd name) = none)
    (hcreate : s.fs.createDirectory (runDir cwd name) = some (s'.fs, created))
    (hdir : (s'.stage r).dir = some ⟨name, created⟩)
    (hother : ∀ r', r' ≠ r → s'.stage r' = s.stage r') : RunsInv cwd s' := by
  obtain ⟨hthere, -, hcreated, -⟩ := FileSystem.createDirectory_eq_some hcreate
  have hkeep := FileSystem.createDirectory_keepsDirs hcreate
  have hfree : ∀ r' d, (s.stage r').dir = some d → d.name ≠ name := by
    intro r' d h heq
    have hd := hinv.there r' d h
    rw [heq, hnone] at hd
    exact absurd hd (by simp)
  have hcase : ∀ r' d, (s'.stage r').dir = some d →
      (r' = r ∧ d = ⟨name, created⟩) ∨ (r' ≠ r ∧ (s.stage r').dir = some d) := by
    intro r' d h
    by_cases hr : r' = r
    · subst hr
      rw [hdir] at h
      exact .inl ⟨rfl, (Option.some.inj h).symm⟩
    · exact .inr ⟨hr, by rw [← hother r' hr, h]⟩
  refine ⟨?_, ?_, ?_, ?_⟩
  · intro r' d h
    rcases hcase r' d h with ⟨-, rfl⟩ | ⟨-, h⟩
    · exact hcreated.mpr hnone
    · exact hinv.created r' d h
  · intro r' d h
    rcases hcase r' d h with ⟨-, rfl⟩ | ⟨-, h⟩
    · exact hthere
    · exact hkeep _ (hinv.there r' d h)
  · intro r₁ r₂ d₁ d₂ h₁ h₂ hne
    rcases hcase r₁ d₁ h₁ with ⟨rfl, rfl⟩ | ⟨-, h₁⟩
    · rcases hcase r₂ d₂ h₂ with ⟨rfl, -⟩ | ⟨-, h₂⟩
      · exact absurd rfl hne
      · exact (hfree r₂ d₂ h₂).symm
    · rcases hcase r₂ d₂ h₂ with ⟨-, rfl⟩ | ⟨-, h₂⟩
      · exact hfree r₁ d₁ h₁
      · exact hinv.apart r₁ r₂ d₁ d₂ h₁ h₂ hne
  · intro r' d h p x hx
    rw [FileSystem.createDirectory_content hcreate] at hx
    rcases hcase r' d h with ⟨-, rfl⟩ | ⟨-, h⟩
    · rw [FileSystem.content_of_none (FileSystem.node_append_none hnone p)] at hx
      exact absurd hx List.not_mem_nil
    · exact hinv.own r' d h p x hx

/-- What a run appends to a file of its own is below nobody else's directory. -/
theorem RunsInv.own_append {s : Runs ρ} {d e : Created} {r' : ρ} {alg : Algorithm}
    {traits : DataSet} {piece : List (Written ρ)} (hinv : RunsInv cwd s)
    (hd : (s.stage r).dir = some d) (hpiece : ∀ x ∈ piece, x.author = some r)
    (he : (s.stage r').dir = some e) (p : Path) :
    ∀ x ∈ (s.fs.append (logFile (runDir cwd d.name) alg traits) piece).content
      (p ++ runDir cwd e.name), x.author = some r' := by
  intro x hx
  by_cases hp : p ++ runDir cwd e.name = logFile (runDir cwd d.name) alg traits
  · have hr : r' = r := by
      by_contra hr
      exact logFile_ne_below (hinv.apart r r' d e hd he (Ne.symm hr)) alg traits p hp
    rw [hp] at hx
    rcases s.fs.append_content (logFile (runDir cwd d.name) alg traits) piece with hsame | hmore
    · rw [hsame, ← hp] at hx
      exact hinv.own r' e he p x hx
    · rw [hmore, List.mem_append] at hx
      rcases hx with hx | hx
      · rw [← hp] at hx
        exact hinv.own r' e he p x hx
      · rw [hr]
        exact hpiece x hx
  · rw [FileSystem.content_congr (FileSystem.append_node_of_ne s.fs piece hp)] at hx
    exact hinv.own r' e he p x hx

/-- **One step keeps the runs apart**, provided a run directory that is
asked for was not there. -/
theorem step_runsInv {s s' : Runs ρ} {ra : ρ × RunAct} (hinv : RunsInv cwd s)
    (huntaken : Untaken cwd s ra) (hstep : step cwd s ra = some s') : RunsInv cwd s' := by
  obtain ⟨r, a⟩ := ra
  obtain ⟨hadv, hother⟩ := step_eq_some hstep
  obtain ⟨hkeep, hcases⟩ := advance_cases hadv
  rcases hcases with ⟨hdir, hcontent⟩ | ⟨name, created, hnamed, hact, hdir, hcreate⟩ |
    ⟨d, alg, traits, piece, hd, hd', hpiece, hfs⟩
  · -- no contents have changed
    refine hinv.kept hkeep ?_ fun r' d h p => by rw [hcontent]; exact hinv.own r' d h p
    intro r' d h
    by_cases hr : r' = r
    · subst hr
      rcases hdir with heq | hnone
      · rw [← heq, h]
      · rw [hnone] at h
        exact absurd h (by simp)
    · rw [← hother r' hr, h]
  · -- a run has created its directory
    simp only [Untaken, hnamed, hact] at huntaken
    obtain ⟨-, -, hnew, -⟩ := FileSystem.createDirectory_eq_some hcreate
    have hcreated : created = true := by
      rw [FileSystem.createDirectory_created hcreate, huntaken, Bool.not_false]
    exact hinv.dir_created (hnew.mp hcreated) hcreate hdir hother
  · -- a run has written to a file of its own
    refine hinv.kept hkeep ?_ fun r' e h p => by rw [hfs]; exact hinv.own_append hd hpiece h p
    intro r' e h
    by_cases hr : r' = r
    · subst hr
      rw [hd, ← hd', h]
    · rw [← hother r' hr, h]

/-! ## Separate runs -/

theorem Stage.dir_of_returned {g : Stage} {d : Created} {ok : Bool}
    (h : g.returned = some (d, ok)) : g.dir = some d := by
  cases g <;> simp_all [Stage.returned, Stage.dir]

/-- The invariant says that the runs are separate. -/
theorem RunsInv.separate {s : Runs ρ} (hinv : RunsInv cwd s) : Separate cwd s where
  created r d h := hinv.created r d (Stage.dir_of_returned h)
  own r d h := hinv.own r d (Stage.dir_of_returned h)
  undisturbed := by
    intro r d h r' a s' hne hstep p
    have hd := Stage.dir_of_returned h
    obtain ⟨hadv, -⟩ := step_eq_some hstep
    obtain ⟨-, ⟨-, hcontent⟩ | ⟨name, created, -, -, -, hcreate⟩ |
      ⟨e, alg, traits, piece, he, -, -, hfs⟩⟩ := advance_cases hadv
    · exact hcontent _
    · exact FileSystem.createDirectory_content hcreate _
    · rw [hfs]
      have hpath := @logFile_ne_below cwd _ _ (hinv.apart r' r e d he hd hne) alg traits p
      exact FileSystem.content_congr (FileSystem.append_node_of_ne s.fs piece hpath)

theorem run_runsInv {s : Runs ρ} (fs : FileSystem (Written ρ)) (as : List (ρ × RunAct))
    (hmeets : Meets (step cwd) (Untaken cwd) (Runs.init fs) as)
    (hrun : run (step cwd) (Runs.init fs) as = some s) : RunsInv cwd s :=
  Meets.invariant (fun _ _ _ hinv hcond hstep => step_runsInv hinv hcond hstep) as
    (init_runsInv cwd fs) hmeets hrun

/-- **Runs are separate as long as names are free.** In every sequence of
steps of any runs, from any file system, in which no directory a run creates
for itself was there before, every state reached has the results kept per
run. -/
theorem runs_are_separate {s : Runs ρ} (fs : FileSystem (Written ρ)) (as : List (ρ × RunAct))
    (hmeets : Meets (step cwd) (Untaken cwd) (Runs.init fs) as)
    (hrun : run (step cwd) (Runs.init fs) as = some s) : Separate cwd s :=
  (run_runsInv fs as hmeets hrun).separate

/-! ## Two runs, in two seconds and in one -/

/-- The steps of a run that starts at `t` and logs one line. -/
def oneLine (r : Bool) (t : LocalTime) : List (Bool × RunAct) :=
  [(r, .createLogs), (r, .readClock t), (r, .createRunDir), (r, .checkExists),
    (r, .createDataDir .heapSort .random 1 0 0), (r, .openFile), (r, .write 6), (r, .leaveLog)]

def noon : LocalTime := .of 2009 .march 31 12 0 0
def afterNoon : LocalTime := .of 2009 .march 31 12 0 1

/-- Runs in different seconds, overlapping. -/
def twoSeconds : List (Bool × RunAct) :=
  (oneLine true noon).take 4 ++ oneLine false afterNoon ++ (oneLine true noon).drop 4

/-- The theorem on the overlapping runs. -/
theorem runs_are_separate_two_seconds :
    ∃ s, run (step []) (Runs.init FileSystem.empty) twoSeconds = some s ∧ Separate [] s := by
  obtain ⟨s, hs⟩ : ∃ s, run (step []) (Runs.init FileSystem.empty) twoSeconds = some s := ⟨_, rfl⟩
  exact ⟨s, hs, runs_are_separate FileSystem.empty twoSeconds (by decide +kernel) hs⟩

/-- Two runs in the same second: the second `log_init` returns true without
having created the directory, and both write to the same file. -/
theorem runs_share_a_second :
    ∃ s : Runs Bool,
      run (step []) (Runs.init FileSystem.empty) (oneLine true noon ++ oneLine false noon) = some s ∧
      (s.stage false).returned = some (⟨"2009-Mar-31_12:00:00", false⟩, true) ∧
      (s.fs.content (logFile (runDir [] "2009-Mar-31_12:00:00") .heapSort .random)).map
        Written.author = List.replicate 6 (some true) ++ List.replicate 6 (some false) ∧
      ¬ Separate [] s := by
  have hrun : (run (step []) (Runs.init FileSystem.empty)
      (oneLine true noon ++ oneLine false noon)).map (fun s => ((s.stage false).returned,
        (s.fs.content (logFile (runDir [] "2009-Mar-31_12:00:00") .heapSort .random)).map
          Written.author))
      = some (some (⟨"2009-Mar-31_12:00:00", false⟩, true),
        List.replicate 6 (some true) ++ List.replicate 6 (some false)) := by
    decide +kernel
  obtain ⟨s, hs, h⟩ := Option.map_eq_some_iff.mp hrun
  rw [Prod.mk.injEq] at h
  refine ⟨s, hs, h.1, h.2, ?_⟩
  intro hsep
  exact absurd (hsep.created false _ h.1) (by decide)

/-! ## Runs in different seconds -/

/-- The time an operation reads, if it reads one. -/
def RunAct.reading : RunAct → Option LocalTime
  | .readClock t => some t
  | _ => none

/-- Who reads which time. -/
def readings (as : List (ρ × RunAct)) : List (ρ × LocalTime) :=
  as.filterMap fun ra => ra.2.reading.map fun t => (ra.1, t)

/-- Before it has created its directory, or failed to. -/
def Stage.early : Stage → Bool
  | .start => true
  | .logsMade => true
  | .named _ => true
  | _ => false

omit [DecidableEq ρ] in
theorem createOrThrow_isDir {p q : Path} {next : Bool → Stage}
    (h : createOrThrow fs p next = (g', fs')) (hq : q ≠ p) : fs'.isDir q = fs.isDir q := by
  unfold createOrThrow at h
  split at h
  next created hcreate =>
    cases h
    exact FileSystem.isDir_congr ((FileSystem.createDirectory_eq_some hcreate).2.1 q hq)
  next =>
    cases h
    rfl

/-- What one operation does to names and to run directories: a name is a time
that was read, and only a run with that name makes the directory, after which
it is past both. -/
structure NameStep (cwd : Path) (fs fs' : FileSystem (Written ρ)) (g : Stage) (a : RunAct)
    (g' : Stage) : Prop where
  early : g'.early = true → g.early = true
  read : ∀ name, g' = .named name → ∃ t, a = .readClock t ∧ name = String.ofList (now t)
  made : ∀ name, fs'.isDir (runDir cwd name) = true →
    fs.isDir (runDir cwd name) = true ∨ g = .named name ∧ g'.early = false

omit [DecidableEq ρ] in
/-- A run that has its directory, or has none coming, gets no name and makes
no directory of a run. -/
theorem nameStep_of_late (hlate : g'.early = false)
    (hsame : ∀ name, fs'.isDir (runDir cwd name) = fs.isDir (runDir cwd name)) :
    NameStep cwd fs fs' g a g' where
  early he := absurd (he.symm.trans hlate) (by simp)
  read name hg := absurd (hg ▸ hlate) (by simp [Stage.early])
  made name hd := .inl (hsame name ▸ hd)

omit [DecidableEq ρ] in
theorem advance_nameStep (h : advance cwd r fs g a = some (g', fs')) :
    NameStep cwd fs fs' g a g' := by
  unfold advance at h
  split at h
  next =>
    -- `logs/` is a level above
    have hne : ∀ name, runDir cwd name ≠ logsDir cwd := fun name => List.cons_ne_self name _
    have hsame := fun name => createOrThrow_isDir (Option.some.inj h) (hne name)
    obtain ⟨-, -, rfl | ⟨created, -, rfl⟩⟩ := createOrThrow_cases (Option.some.inj h)
    · exact nameStep_of_late rfl hsame
    · exact ⟨fun _ => rfl, fun name hg => absurd hg (by simp), fun name hd => .inl (hsame name ▸ hd)⟩
  next t =>
    cases h
    refine ⟨fun _ => rfl, ?_, fun _ hd => .inl hd⟩
    intro name hg
    cases hg
    exact ⟨t, rfl, rfl⟩
  next name =>
    have hlate : g'.early = false := by
      obtain ⟨-, -, rfl | ⟨created, -, rfl⟩⟩ := createOrThrow_cases (Option.some.inj h)
      · rfl
      · rfl
    refine ⟨fun _ => rfl, fun name' hg => absurd (hg ▸ hlate) (by simp [Stage.early]), ?_⟩
    intro name' hd
    by_cases heq : name' = name
    · exact .inr ⟨by rw [heq], hlate⟩
    · -- no other name gets a directory
      have hne : runDir cwd name' ≠ runDir cwd name := fun hp => heq (List.cons.inj hp).1
      exact .inl (createOrThrow_isDir (Option.some.inj h) hne ▸ hd)
  next d =>
    cases h
    exact nameStep_of_late rfl fun _ => rfl
  next d ok alg traits size timeMsecs count =>
    -- a data set's directory is a level below
    have hne : ∀ name, runDir cwd name ≠ traits.name :: runDir cwd d.name := by
      intro name heq
      exact absurd (congrArg List.length heq) (by simp [runDir])
    have hsame := fun name => createOrThrow_isDir (Option.some.inj h) (hne name)
    obtain ⟨-, -, rfl | ⟨created, -, rfl⟩⟩ := createOrThrow_cases (Option.some.inj h)
    · exact nameStep_of_late rfl hsame
    · exact nameStep_of_late rfl hsame
  next d ok alg traits line =>
    cases h
    exact nameStep_of_late rfl fun _ => fs.openAppend_isDir _ _
  next d ok alg traits rest k =>
    split at h
    next =>
      cases h
      exact nameStep_of_late rfl fun _ => fs.append_isDir _ _ _
    next => exact absurd h (by simp)
  next d ok alg traits =>
    cases h
    exact nameStep_of_late rfl fun _ => rfl
  next => exact absurd h (by simp)

/-- Names come from the readings `rs` of their runs, and a run directory that
was not in `fs₀` is named after a reading of a run that is past naming. -/
structure NamesInv (cwd : Path) (fs₀ : FileSystem (Written ρ)) (rs : List (ρ × LocalTime))
    (s : Runs ρ) : Prop where
  read : ∀ r name, s.stage r = .named name → ∃ t, (r, t) ∈ rs ∧ name = String.ofList (now t)
  made : ∀ name, s.fs.isDir (runDir cwd name) = true → fs₀.isDir (runDir cwd name) = true ∨
    ∃ r t, (r, t) ∈ rs ∧ name = String.ofList (now t) ∧ (s.stage r).early = false

variable {fs₀ : FileSystem (Written ρ)} {rs : List (ρ × LocalTime)}

omit [DecidableEq ρ] in
theorem init_namesInv (cwd : Path) (fs₀ : FileSystem (Written ρ)) (rs : List (ρ × LocalTime)) :
    NamesInv cwd fs₀ rs (Runs.init fs₀) where
  read _ _ h := absurd h (by simp [Runs.init])
  made _ h := .inl h

theorem step_namesInv {s s' : Runs ρ} {ra : ρ × RunAct} (hinv : NamesInv cwd fs₀ rs s)
    (hread : ∀ t, ra.2.reading = some t → (ra.1, t) ∈ rs) (hstep : step cwd s ra = some s') :
    NamesInv cwd fs₀ rs s' := by
  obtain ⟨r, a⟩ := ra
  obtain ⟨hadv, hother⟩ := step_eq_some hstep
  have hname := advance_nameStep hadv
  have hlate : ∀ r', (s.stage r').early = false → (s'.stage r').early = false := by
    intro r' he
    by_cases hr : r' = r
    · subst hr
      exact Bool.eq_false_iff.mpr fun h => absurd (he.symm.trans (hname.early h)) (by simp)
    · rw [hother r' hr, he]
  constructor
  · intro r' name hnamed
    by_cases hr : r' = r
    · subst hr
      obtain ⟨t, rfl, rfl⟩ := hname.read name hnamed
      exact ⟨t, hread t rfl, rfl⟩
    · exact hinv.read r' name (by rw [← hother r' hr, hnamed])
  · intro name hdir
    rcases hname.made name hdir with hold | ⟨hnamed, he⟩
    · rcases hinv.made name hold with hfirst | ⟨r', t, hmem, heq, he⟩
      · exact .inl hfirst
      · exact .inr ⟨r', t, hmem, heq, hlate r' he⟩
    · obtain ⟨t, hmem, heq⟩ := hinv.read r name hnamed
      exact .inr ⟨r, t, hmem, heq, he⟩

omit [DecidableEq ρ] in
/-- Where the readings of different runs differ and none of them names an old
directory, names are free. -/
theorem NamesInv.untaken {s : Runs ρ} (hinv : NamesInv cwd fs₀ rs s)
    (hapart : ∀ x ∈ rs, ∀ y ∈ rs, x.2 = y.2 → x.1 = y.1)
    (hfree : ∀ x ∈ rs, fs₀.isDir (runDir cwd (String.ofList (now x.2))) = false)
    (ra : ρ × RunAct) : Untaken cwd s ra := by
  unfold Untaken
  split
  next name hnamed _ =>
    obtain ⟨t, hmem, rfl⟩ := hinv.read ra.1 name hnamed
    apply Bool.eq_false_iff.mpr
    intro hdir
    rcases hinv.made _ hdir with hfirst | ⟨r', t', hmem', heq, he⟩
    · have hnone := hfree (ra.1, t) hmem
      exact absurd (hfirst.symm.trans hnone) (by simp)
    · -- the same name is the same second, so it is this run, which is not past naming
      have htime : t = t' := now_inj (String.ofList_inj.mp heq)
      have hrun : ra.1 = r' := hapart _ hmem _ hmem' htime
      rw [← hrun, hnamed] at he
      exact absurd he (by simp [Stage.early])
  next => trivial

/-- **Runs in different seconds are separate**, whatever the clock does
otherwise, if no directory was named after one of these seconds before. -/
theorem separate_of_readings {s : Runs ρ} (fs : FileSystem (Written ρ)) (as : List (ρ × RunAct))
    (hapart : ∀ x ∈ readings as, ∀ y ∈ readings as, x.2 = y.2 → x.1 = y.1)
    (hfree : ∀ x ∈ readings as, fs.isDir (runDir cwd (String.ofList (now x.2))) = false)
    (hrun : run (step cwd) (Runs.init fs) as = some s) : Separate cwd s := by
  have hread : Meets (step cwd) (fun _ ra => ∀ t, ra.2.reading = some t → (ra.1, t) ∈ readings as)
      (Runs.init fs) as := by
    refine .of_mem fun ra hra t ht => ?_
    exact List.mem_filterMap.mpr ⟨ra, hra, by rw [ht]; rfl⟩
  have hmeets : Meets (step cwd) (Untaken cwd) (Runs.init fs) as :=
    .of_invariant (fun _ _ _ hinv h hstep => step_namesInv hinv h hstep)
      (fun _ ra hinv _ => hinv.untaken hapart hfree ra) as (init_namesInv cwd fs _) hread
  exact (run_runsInv fs as hmeets hrun).separate

end Satf.Log
