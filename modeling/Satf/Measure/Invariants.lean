import Satf.Measure.World

/-!
# What holds in every state of the measuring run

Three invariants, each proved over one step and from there over every run.

* `LogInv`: only the holder of `log_mutex` is inside `log()`, and each log
  file holds the complete lines of the calls that have left, followed by what
  the holder has written so far. It carries the facts about the file system
  that keep every operation in `log()` from failing.
* `SlotInv`: the comparison counter of a worker is null or 0 between tasks,
  and during a sort equals the comparisons of that sort.
* `TaskInv`: no task is lost or duplicated. Logged, running and pending tasks
  together are the tasks scheduled so far, and after `main` has returned there
  is nothing left to do.
-/

namespace Satf.Measure

open Satf.Lib

variable {n : Nat} {dir : Path} {s s' : World n} {w w' : Fin n}

/-! ## Reading an updated state -/

@[simp] theorem at_worker_self (s : World n) (w : Fin n) (p : Phase) :
    (s.at w p).worker w = p := Function.update_self ..

theorem at_worker_ne (s : World n) (p : Phase) (h : w' ≠ w) :
    (s.at w p).worker w' = s.worker w' := Function.update_of_ne h ..

@[simp] theorem withSlot_slot_self (s : World n) (w : Fin n) (c : Slot) :
    (s.withSlot w c).slot w = c := Function.update_self ..

theorem withSlot_slot_ne (s : World n) (c : Slot) (h : w' ≠ w) :
    (s.withSlot w c).slot w' = s.slot w' := Function.update_of_ne h ..

/-! ## The log files -/

/-- The worker is inside `log()`'s critical section. -/
def Phase.inside : Phase → Bool
  | .inLog _ _ => true
  | _ => false

/-- The record is one for this pair of algorithm and data set. -/
def Record.isFor (a : Algorithm) (d : DataSet) (r : Record) : Bool :=
  decide (r.task.algorithm = a ∧ r.task.dataTraits = d)

/-- The complete lines of the calls for one pair, in order. -/
def linesFor (left : List Record) (a : Algorithm) (d : DataSet) : List Char :=
  (left.filter (Record.isFor a d)).flatMap Record.line

/-- What a worker inside the critical section has written of its line, if its
call is for this pair. -/
def Phase.written (a : Algorithm) (d : DataSet) : Phase → List Char
  | .inLog r (.writing done _) => if r.isFor a d then done else []
  | _ => []

/-- The part of a line that the holder of the mutex has written for this
pair. -/
def World.partialLine (s : World n) (a : Algorithm) (d : DataSet) : List Char :=
  match s.logMutex with
  | none => []
  | some w => (s.worker w).written a d

/-- The invariant of the critical section and the files under `dir`. -/
structure LogInv (dir : Path) (s : World n) : Prop where
  mutex : ∀ w, s.logMutex = some w ↔ (s.worker w).inside = true
  run_dir : s.fs.node dir = some .dir
  set_dir : ∀ d : DataSet, s.fs.node (d.name :: dir) = none ∨
    s.fs.node (d.name :: dir) = some .dir
  log_file : ∀ a d, s.fs.node (logFile dir a d) = none ∨
    ∃ xs, s.fs.node (logFile dir a d) = some (.file xs)
  opening : ∀ w r, s.worker w = .inLog r .openFile →
    s.fs.node (r.task.dataTraits.name :: dir) = some .dir
  opened : ∀ w r done rest, s.worker w = .inLog r (.writing done rest) →
    s.fs.node (r.file dir) = some (.file (s.fs.content (r.file dir)))
  progress : ∀ w r done rest, s.worker w = .inLog r (.writing done rest) → done ++ rest = r.line
  content : ∀ a d, s.fs.content (logFile dir a d) = linesFor s.left a d ++ s.partialLine a d

theorem logFile_ne_setDir (dir : Path) (a : Algorithm) (d e : DataSet) :
    logFile dir a d ≠ e.name :: dir := by
  intro h
  have hlen := congrArg List.length h
  simp [logFile] at hlen

theorem ne_cons_self (c : String) (dir : Path) : dir ≠ c :: dir := by
  intro h
  have hlen := congrArg List.length h
  simp at hlen

theorem ne_file (dir : Path) (r : Record) : dir ≠ r.file dir := by
  intro h
  have hlen := congrArg List.length h
  simp only [Record.file, logFile, List.length_cons] at hlen
  omega

theorem setDir_ne_file (dir : Path) (r : Record) (d : DataSet) : d.name :: dir ≠ r.file dir :=
  (logFile_ne_setDir dir _ _ d).symm

/-- What `log()` finds under the run directory: nothing but directories where
it makes directories, nothing but files where it opens files. -/
structure RunDir (dir : Path) (fs : FileSystem Char) : Prop where
  run_dir : fs.node dir = some .dir
  set_dir : ∀ d : DataSet, fs.node (d.name :: dir) = none ∨ fs.node (d.name :: dir) = some .dir
  log_file : ∀ a d, fs.node (logFile dir a d) = none ∨
    ∃ xs, fs.node (logFile dir a d) = some (.file xs)

/-- A data set's directory has been made, and nothing else has changed. -/
theorem RunDir.setDir_made {fs fs' : FileSystem Char} {e : DataSet} (h : RunDir dir fs)
    (hself : fs'.node (e.name :: dir) = some .dir)
    (hother : ∀ q, q ≠ e.name :: dir → fs'.node q = fs.node q) : RunDir dir fs' where
  run_dir := by
    rw [hother dir (ne_cons_self _ dir)]
    exact h.run_dir
  set_dir d := by
    by_cases hd : d.name :: dir = e.name :: dir
    · rw [hd]
      exact .inr hself
    · rw [hother _ hd]
      exact h.set_dir d
  log_file a d := by
    rw [hother _ (logFile_ne_setDir dir a d e)]
    exact h.log_file a d

/-- A log file has been opened or written, and nothing else has changed. -/
theorem RunDir.file_written {fs fs' : FileSystem Char} {r : Record} {xs : List Char}
    (h : RunDir dir fs) (hself : fs'.node (r.file dir) = some (.file xs))
    (hother : ∀ q, q ≠ r.file dir → fs'.node q = fs.node q) : RunDir dir fs' where
  run_dir := by
    rw [hother dir (ne_file dir r)]
    exact h.run_dir
  set_dir d := by
    rw [hother _ (setDir_ne_file dir r d)]
    exact h.set_dir d
  log_file a d := by
    by_cases hq : logFile dir a d = r.file dir
    · rw [hq]
      exact .inr ⟨xs, hself⟩
    · rw [hother _ hq]
      exact h.log_file a d

/-- A pair's file is the record's file exactly when the record is for it. -/
theorem file_eq_logFile {r : Record} {a : Algorithm} {d : DataSet} :
    logFile dir a d = r.file dir ↔ r.isFor a d = true := by
  rw [Record.file, logFile_inj, Record.isFor, decide_eq_true_eq]
  exact ⟨fun h => ⟨h.1.symm, h.2.symm⟩, fun h => ⟨h.1.symm, h.2.symm⟩⟩

theorem linesFor_snoc (left : List Record) (r : Record) (a : Algorithm) (d : DataSet) :
    linesFor (left ++ [r]) a d = linesFor left a d ++ if r.isFor a d then r.line else [] := by
  unfold linesFor
  rw [List.filter_append, List.flatMap_append]
  cases h : r.isFor a d with
  | true => simp [h]
  | false => simp [h]

theorem LogInv.dirs (hinv : LogInv dir s) : RunDir dir s.fs :=
  ⟨hinv.run_dir, hinv.set_dir, hinv.log_file⟩

/-- A worker that is not inside does not hold the mutex. -/
theorem LogInv.not_holder (hinv : LogInv dir s) (hout : (s.worker w).inside = false) :
    s.logMutex ≠ some w := by
  intro h
  rw [(hinv.mutex w).mp h] at hout
  exact Bool.false_ne_true hout.symm

/-- A worker inside holds the mutex, so what is written of a line is its own. -/
theorem LogInv.partialLine_eq (hinv : LogInv dir s) (hin : (s.worker w).inside = true)
    (a : Algorithm) (d : DataSet) : s.partialLine a d = (s.worker w).written a d := by
  rw [World.partialLine, (hinv.mutex w).mpr hin]

/-- Moving a worker from one phase outside the critical section to another
does not concern the files. -/
theorem LogInv.outside (hinv : LogInv dir s) {p : Phase} (hold : (s.worker w).inside = false)
    (hnew : p.inside = false) : LogInv dir (s.at w p) := by
  have hne := hinv.not_holder hold
  -- whoever is inside now was so before
  have hinside : ∀ w' r stage, (s.at w p).worker w' = .inLog r stage →
      s.worker w' = .inLog r stage := by
    intro w' r stage h
    by_cases hw : w' = w
    · rw [hw, at_worker_self] at h
      rw [h] at hnew
      exact absurd hnew.symm Bool.false_ne_true
    · rwa [at_worker_ne s p hw] at h
  constructor
  · intro w'
    by_cases hw : w' = w
    · rw [hw, at_worker_self, hnew]
      exact ⟨fun h => absurd h hne, fun h => absurd h Bool.false_ne_true⟩
    · rw [at_worker_ne s p hw]
      exact hinv.mutex w'
  · exact hinv.run_dir
  · exact hinv.set_dir
  · exact hinv.log_file
  · exact fun w' r h => hinv.opening w' r (hinside w' r _ h)
  · exact fun w' r done rest h => hinv.opened w' r done rest (hinside w' r _ h)
  · exact fun w' r done rest h => hinv.progress w' r done rest (hinside w' r _ h)
  · intro a d
    rw [show (s.at w p).fs = s.fs from rfl, hinv.content a d]
    congr 1
    unfold World.partialLine
    rw [show (s.at w p).logMutex = s.logMutex from rfl]
    cases hm : s.logMutex with
    | none => rfl
    | some w' =>
      have hw : w' ≠ w := by
        intro hw
        rw [hw] at hm
        exact hne hm
      simp only [at_worker_ne s p hw]

/-- The counters do not concern the files. -/
theorem LogInv.withSlot {c : Slot} {p : Phase} (hinv : LogInv dir (s.at w p)) :
    LogInv dir ((s.withSlot w c).at w p) := { hinv with }

/-- When the mutex is free nobody is inside. -/
theorem LogInv.none_inside (hinv : LogInv dir s) (hfree : s.logMutex = none) (w' : Fin n) :
    (s.worker w').inside = false := by
  cases h : (s.worker w').inside with
  | false => rfl
  | true =>
    rw [(hinv.mutex w').mpr h] at hfree
    exact absurd hfree (by simp)

/-- While one worker is inside nobody else is. -/
theorem LogInv.others_outside (hinv : LogInv dir s) (hin : (s.worker w).inside = true)
    (h : w' ≠ w) : (s.worker w').inside = false := by
  cases hw : (s.worker w').inside with
  | false => rfl
  | true =>
    have h1 := (hinv.mutex w).mpr hin
    rw [(hinv.mutex w').mpr hw, Option.some.injEq] at h1
    exact absurd h1 h

theorem written_of_outside {p : Phase} (h : p.inside = false) (a : Algorithm) (d : DataSet) :
    p.written a d = [] := by
  cases p with
  | inLog r stage => exact absurd h (by simp [Phase.inside])
  | _ => rfl

/-- The step of the worker that is, or comes to be, the only one inside: what
is left to show is about its own new phase and the files. -/
theorem LogInv.alone {p : Phase} (hworker : s'.worker = Function.update s.worker w p)
    (hothers : ∀ w', w' ≠ w → (s.worker w').inside = false)
    (hmutex : s'.logMutex = if p.inside then some w else none)
    (hdirs : RunDir dir s'.fs)
    (hopening : ∀ r, p = .inLog r .openFile →
      s'.fs.node (r.task.dataTraits.name :: dir) = some .dir)
    (hwriting : ∀ r done rest, p = .inLog r (.writing done rest) →
      s'.fs.node (r.file dir) = some (.file (s'.fs.content (r.file dir))) ∧
        done ++ rest = r.line)
    (hcontent : ∀ a d, s'.fs.content (logFile dir a d)
      = linesFor s'.left a d ++ p.written a d) : LogInv dir s' := by
  have hself : s'.worker w = p := by rw [hworker, Function.update_self]
  have hother : ∀ w', w' ≠ w → (s'.worker w').inside = false := by
    intro w' hw
    rw [hworker, Function.update_of_ne hw]
    exact hothers w' hw
  have hinside : ∀ w' r stage, s'.worker w' = .inLog r stage → p = .inLog r stage := by
    intro w' r stage h
    by_cases hw : w' = w
    · rw [← hself, ← hw, h]
    · have hout := hother w' hw
      rw [h] at hout
      exact absurd hout.symm Bool.false_ne_true
  constructor
  · intro w'
    by_cases hw : w' = w
    · rw [hw, hself, hmutex]
      cases p.inside with
      | true => simp
      | false => simp
    · rw [hother w' hw, hmutex]
      cases p.inside with
      | true => simpa using fun h : w = w' => hw h.symm
      | false => simp
  · exact hdirs.run_dir
  · exact hdirs.set_dir
  · exact hdirs.log_file
  · intro w' r h
    exact hopening r (hinside w' r _ h)
  · intro w' r done rest h
    exact (hwriting r done rest (hinside w' r _ h)).1
  · intro w' r done rest h
    exact (hwriting r done rest (hinside w' r _ h)).2
  · intro a d
    rw [hcontent a d, World.partialLine, hmutex]
    cases hp : p.inside with
    | true =>
      show _ = linesFor s'.left a d ++ (s'.worker w).written a d
      rw [hself]
    | false => rw [written_of_outside hp]; rfl

/-- In `log()`, creating the data set's directory succeeds. -/
theorem LogInv.makeDir_isSome (hinv : LogInv dir s) (d : DataSet) :
    ∃ fs created, s.fs.createDirectory (d.name :: dir) = some (fs, created) :=
  FileSystem.createDirectory_isSome hinv.run_dir (hinv.set_dir d)

/-- The step of the worker inside that opens its file: contents are as before,
and no part of its line is written yet. -/
theorem LogInv.file_opened {r : Record} (hinv : LogInv dir s)
    (hw : s.worker w = .inLog r .openFile) :
    LogInv dir { s.at w (.inLog r (.writing [] r.line)) with
      fs := s.fs.openAppend (r.file dir) } := by
  have hin : (s.worker w).inside = true := by rw [hw]; rfl
  have hfile : (s.fs.openAppend (r.file dir)).node (r.file dir)
      = some (.file (s.fs.content (r.file dir))) :=
    FileSystem.openAppend_node_self (hinv.opening w r hw) (hinv.log_file _ _)
  have hsame := s.fs.openAppend_content (r.file dir)
  refine LogInv.alone (p := .inLog r (.writing [] r.line)) rfl
    (fun w' h => hinv.others_outside hin h) ((hinv.mutex w).mpr hin)
    (hinv.dirs.file_written hfile fun q hq => FileSystem.openAppend_node_of_ne s.fs hq)
    (fun r' h => nomatch h) ?_ ?_
  · intro r' done rest h
    cases h
    exact ⟨by rw [hsame]; exact hfile, rfl⟩
  · intro a d
    have h := hinv.content a d
    rw [hinv.partialLine_eq hin, hw] at h
    show (s.fs.openAppend (r.file dir)).content (logFile dir a d)
      = linesFor s.left a d ++ if r.isFor a d then [] else []
    rw [hsame, h, ite_self]
    rfl

/-- The step of the worker inside that writes a piece of its line: it
lengthens the record's file, and no other. -/
theorem LogInv.piece_written {r : Record} {done rest : List Char} (k : Nat)
    (hinv : LogInv dir s) (hw : s.worker w = .inLog r (.writing done rest)) :
    LogInv dir { s.at w (.inLog r (.writing (done ++ rest.take k) (rest.drop k))) with
      fs := s.fs.append (r.file dir) (rest.take k) } := by
  have hin : (s.worker w).inside = true := by rw [hw]; rfl
  have hfile : (s.fs.append (r.file dir) (rest.take k)).node (r.file dir)
      = some (.file (s.fs.content (r.file dir) ++ rest.take k)) :=
    FileSystem.append_node_self _ (hinv.opened w r done rest hw)
  refine LogInv.alone (p := .inLog r (.writing (done ++ rest.take k) (rest.drop k))) rfl
    (fun w' h => hinv.others_outside hin h) ((hinv.mutex w).mpr hin)
    (hinv.dirs.file_written hfile fun q hq => FileSystem.append_node_of_ne s.fs _ hq)
    (fun r' h => nomatch h) ?_ ?_
  · intro r' done' rest' h
    cases h
    refine ⟨by rw [FileSystem.content_of_file hfile]; exact hfile, ?_⟩
    rw [List.append_assoc, List.take_append_drop]
    exact hinv.progress w r done rest hw
  · intro a d
    have h := hinv.content a d
    rw [hinv.partialLine_eq hin, hw] at h
    show (s.fs.append (r.file dir) (rest.take k)).content (logFile dir a d) = _
    cases hfor : r.isFor a d with
    | true =>
      -- the piece lengthens the file and the part of the line alike
      have hq : logFile dir a d = r.file dir := file_eq_logFile.mpr hfor
      simp only [Phase.written, hfor, if_true] at h ⊢
      rw [hq, FileSystem.content_of_file hfile, ← hq, h, List.append_assoc]
      rfl
    | false =>
      have hq : logFile dir a d ≠ r.file dir := by
        intro hq
        rw [file_eq_logFile.mp hq] at hfor
        exact absurd hfor.symm Bool.false_ne_true
      simp only [Phase.written, hfor] at h ⊢
      rw [FileSystem.content_congr (FileSystem.append_node_of_ne s.fs _ hq)]
      exact h

/-- A step of a task keeps the invariant. -/
theorem LogInv.move (hinv : LogInv dir s) (hmove : TaskMove dir s w s') : LogInv dir s' := by
  cases hmove with
  | construct hw | compare hw | count hw =>
    exact (hinv.outside (by rw [hw]; rfl) rfl).withSlot
  | startClock us hw | stopClock us hw => exact hinv.outside (by rw [hw]; rfl) rfl
  | copyLess hw => exact hinv
  | nullCounter hw hslot =>
    refine hinv.outside ?_ rfl
    rcases hw with ⟨start, c, hw⟩ | ⟨micros, c, hw⟩
    · rw [hw]; rfl
    · rw [hw]; rfl
  | @lock r hw hfree =>
    refine LogInv.alone (p := .inLog r .makeDir) rfl (fun w' _ => hinv.none_inside hfree w') rfl
      hinv.dirs (fun r' h => nomatch h) (fun r' done rest h => nomatch h) ?_
    -- nobody was inside, so no line has been begun
    intro a d
    have h := hinv.content a d
    rw [World.partialLine, hfree] at h
    exact h
  | @makeDirFails r hw hfs =>
    -- does not happen: no file stands in the directory's way
    obtain ⟨fs, created, hsome⟩ := hinv.makeDir_isSome r.task.dataTraits
    rw [hfs] at hsome
    exact absurd hsome (by simp)
  | @makeDir r fs created hw hfs =>
    -- new or old, the directory is there now
    obtain ⟨hself, hother, -, -⟩ := FileSystem.createDirectory_eq_some hfs
    have hin : (s.worker w).inside = true := by rw [hw]; rfl
    refine LogInv.alone (p := .inLog r .openFile) rfl (fun w' h => hinv.others_outside hin h)
      ((hinv.mutex w).mpr hin) (hinv.dirs.setDir_made hself hother) ?_
      (fun r' done rest h => nomatch h) ?_
    · intro r' h
      cases h
      exact hself
    · intro a d
      have h := hinv.content a d
      rw [hinv.partialLine_eq hin, hw] at h
      show fs.content (logFile dir a d) = _
      rw [FileSystem.createDirectory_content hfs]
      exact h
  | openFile hw => exact hinv.file_opened hw
  | write k hw => exact hinv.piece_written k hw
  | @unlock r done hw =>
    have hin : (s.worker w).inside = true := by rw [hw]; rfl
    refine LogInv.alone (p := .idle) rfl (fun w' h => hinv.others_outside hin h) rfl
      hinv.dirs (fun r' h => nomatch h) (fun r' done rest h => nomatch h) ?_
    intro a d
    have h := hinv.content a d
    -- nothing is left to write, so what has been written is the line
    have hline := hinv.progress w r done [] hw
    rw [List.append_nil] at hline
    rw [hinv.partialLine_eq hin, hw] at h
    show s.fs.content (logFile dir a d) = linesFor (s.left ++ [r]) a d ++ []
    rw [h, linesFor_snoc, List.append_nil, Phase.written, hline]

/-- Every step keeps the invariant of the log files. -/
theorem LogInv.step {a : Act n} (hinv : LogInv dir s) (h : step dir s a = some s') :
    LogInv dir s' := by
  rcases step_cases h with ⟨act, rest, -, -, rfl⟩ | ⟨-, -, -, -, rfl⟩ |
    ⟨w, k, t, -, hw, -, rfl⟩ | ⟨w, act, -, hmove⟩
  · exact { hinv with }
  · exact { hinv with }
  · exact { hinv.outside (p := .fetched t) (by rw [hw]; rfl) rfl with }
  · exact hinv.move hmove

/-- The invariant holds at the start, for an empty run directory. -/
theorem LogInv.init {fs : FileSystem Char} {script : List MainAct}
    (hdir : fs.node dir = some .dir) (hempty : ∀ c, fs.node (c :: dir) = none) :
    LogInv dir (World.init n script fs) := by
  have hnone : ∀ a d, fs.node (logFile dir a d) = none := by
    intro a d
    cases hn : fs.node (logFile dir a d) with
    | none => rfl
    | some nd =>
      have h := fs.closed a.logName (d.name :: dir) (by
        show fs.node (logFile dir a d) ≠ none
        rw [hn]
        simp)
      rw [hempty] at h
      exact absurd h (by simp)
  constructor
  · intro w
    simp [World.init, Phase.inside]
  · exact hdir
  · exact fun d => .inl (hempty _)
  · exact fun a d => .inl (hnone a d)
  · exact fun w r h => nomatch h
  · exact fun w r done rest h => nomatch h
  · exact fun w r done rest h => nomatch h
  · intro a d
    show fs.content (logFile dir a d) = _
    rw [FileSystem.content_of_none (hnone a d)]
    rfl

/-! ## The comparison counters -/

/-- What the counter of a worker holds in each phase, and what its record
says once `count()` has been read. -/
def SlotOk : Phase → Slot → Prop
  | .idle, c => c = none ∨ c = some 0
  | .fetched _, c => c = none ∨ c = some 0
  | .constructed _, c => c = some 0
  | .sorting _ _ k, c => c = some (UInt32.ofNat k)
  | .sorted _ _ k, c => c = some (UInt32.ofNat k)
  | .atLog r, c => c = some 0 ∧ r.counted = UInt32.ofNat r.comparisons
  | .inLog r _, c => c = some 0 ∧ r.counted = UInt32.ofNat r.comparisons
  | .nullRead _, _ => False
  | .threw r, c => c = some 0 ∧ r.counted = UInt32.ofNat r.comparisons

/-- The invariant of the counters: no worker has read a null counter, and
every call of `log()` was made with the count of its own sort. -/
structure SlotInv (s : World n) : Prop where
  slot : ∀ w, SlotOk (s.worker w) (s.slot w)
  logged : ∀ r ∈ s.left, r.counted = UInt32.ofNat r.comparisons

/-- A worker's step touches no counter but its own. -/
theorem SlotInv.at (hinv : SlotInv s) {p : Phase} {c : Slot} (hp : SlotOk p c) :
    SlotInv ((s.withSlot w c).at w p) where
  slot := by
    intro w'
    by_cases hw : w' = w
    · rw [hw, at_worker_self, show ((s.withSlot w c).at w p).slot w = c from
        withSlot_slot_self s w c]
      exact hp
    · rw [at_worker_ne _ p hw, show ((s.withSlot w c).at w p).slot w' = s.slot w' from
        withSlot_slot_ne s c hw]
      exact hinv.slot w'
  logged := hinv.logged

/-- A worker's step that leaves its counter as it is. -/
theorem SlotInv.at_same (hinv : SlotInv s) {p : Phase} (hp : SlotOk p (s.slot w)) :
    SlotInv (s.at w p) where
  slot := by
    intro w'
    by_cases hw : w' = w
    · rw [hw, at_worker_self]
      exact hp
    · rw [at_worker_ne _ p hw]
      exact hinv.slot w'
  logged := hinv.logged

/-- A step of a task keeps the invariant: the counter is there when the sort
compares and when `count()` reads it. -/
theorem SlotInv.move (hinv : SlotInv s) (hmove : TaskMove dir s w s') : SlotInv s' := by
  have hslot := hinv.slot w
  cases hmove with
  | construct hw =>
    -- null on a fresh thread, 0 after an earlier task's `count()`
    rw [hw] at hslot
    refine hinv.at ?_
    rcases hslot with hnone | hzero
    · rw [hnone]; rfl
    · rw [hzero]; rfl
  | startClock us hw | stopClock us hw =>
    rw [hw] at hslot
    exact hinv.at_same hslot
  | copyLess hw => exact hinv
  | @compare t start c count hw hcount =>
    rw [hw, hcount] at hslot
    refine hinv.at ?_
    show some (count + 1) = some (UInt32.ofNat (c + 1))
    rw [Option.some.inj hslot, UInt32.ofNat_add]
    rfl
  | @count t micros c counted hw hcount =>
    rw [hw, hcount] at hslot
    exact hinv.at ⟨rfl, Option.some.inj hslot⟩
  | nullCounter hw hnull =>
    rcases hw with ⟨start, c, hw⟩ | ⟨micros, c, hw⟩
    · rw [hw, hnull] at hslot
      exact absurd hslot (by simp [SlotOk])
    · rw [hw, hnull] at hslot
      exact absurd hslot (by simp [SlotOk])
  | lock hw hfree =>
    rw [hw] at hslot
    exact { hinv.at_same (p := .inLog _ .makeDir) hslot with }
  | @makeDirFails r hw hfs =>
    rw [hw] at hslot
    exact { hinv.at_same (p := .threw r) hslot with }
  | makeDir hw hfs =>
    rw [hw] at hslot
    exact { hinv.at_same (p := .inLog _ .openFile) hslot with }
  | openFile hw =>
    rw [hw] at hslot
    exact { hinv.at_same (p := .inLog _ (.writing _ _)) hslot with }
  | @write r done rest k hw hk =>
    rw [hw] at hslot
    exact { hinv.at_same
      (p := .inLog r (.writing (done ++ rest.take k) (rest.drop k))) hslot with }
  | @unlock r done hw =>
    rw [hw] at hslot
    -- `count()` left 0 behind, which is what the next task may find
    have hidle : SlotInv (s.at w .idle) := hinv.at_same (.inr hslot.1)
    refine { hidle with logged := ?_ }
    intro r' hr'
    rcases List.mem_append.mp hr' with hold | hnew
    · exact hinv.logged r' hold
    · rw [List.mem_singleton.mp hnew]
      exact hslot.2

/-- Every step keeps the invariant of the counters. -/
theorem SlotInv.step {a : Act n} (hinv : SlotInv s) (h : step dir s a = some s') :
    SlotInv s' := by
  rcases step_cases h with ⟨act, rest, -, -, rfl⟩ | ⟨-, -, -, -, rfl⟩ |
    ⟨w, k, t, -, hw, -, rfl⟩ | ⟨w, act, -, hmove⟩
  · exact { hinv with }
  · exact { hinv with }
  · have hslot := hinv.slot w
    rw [hw] at hslot
    exact { hinv.at_same (p := .fetched t) hslot with }
  · exact hinv.move hmove

theorem SlotInv.init (script : List MainAct) (fs : FileSystem Char) :
    SlotInv (World.init n script fs) where
  slot _ := .inl rfl
  logged _ h := absurd h List.not_mem_nil

/-! ## The tasks -/

/-- The task a worker is busy with. -/
def Phase.carried : Phase → Multiset Task
  | .idle => 0
  | .fetched t => {t}
  | .constructed t => {t}
  | .sorting t _ _ => {t}
  | .sorted t _ _ => {t}
  | .atLog r => {r.task}
  | .inLog r _ => {r.task}
  | .nullRead t => {t}
  | .threw r => {r.task}

/-- The tasks the workers are busy with. -/
def World.inFlight (s : World n) : Multiset Task := ∑ w, (s.worker w).carried

/-- The tasks that have left `log()`'s critical section. -/
def World.loggedTasks (s : World n) : Multiset Task := ↑(s.left.map Record.task)

/-- The conservation law, relative to the script `main` started with. -/
structure TaskInv (script : List MainAct) (s : World n) : Prop where
  conserved : ∃ executed, script = executed ++ s.script ∧
    s.data = vectorsAfter emptyVectors executed ∧
    s.loggedTasks + s.inFlight + ↑s.pending = ↑(scheduledTasks emptyVectors executed)
  finished : s.returned = true → s.script = [] ∧ s.pending = [] ∧ ∀ w, s.worker w = .idle

/-- Moving one worker to another phase exchanges what it carries. -/
theorem inFlight_at (s : World n) (w : Fin n) (p : Phase) :
    (s.at w p).inFlight + (s.worker w).carried = s.inFlight + p.carried := by
  unfold World.inFlight
  have hcomp : (fun w' => ((s.at w p).worker w').carried)
      = Function.update (fun w' => (s.worker w').carried) w p.carried := by
    funext w'
    by_cases hw : w' = w
    · rw [hw, at_worker_self, Function.update_self]
    · rw [at_worker_ne s p hw, Function.update_of_ne hw]
  rw [hcomp, Finset.sum_update_of_mem (Finset.mem_univ w), Finset.sdiff_singleton_eq_erase,
    add_assoc, Finset.sum_erase_add _ _ (Finset.mem_univ w), add_comm]

theorem inFlight_at_same {p : Phase} (h : p.carried = (s.worker w).carried) :
    (s.at w p).inFlight = s.inFlight := by
  have hat := inFlight_at s w p
  rw [h] at hat
  exact add_right_cancel hat

/-- A step of a task keeps the logged and running tasks together the same, and
leaves the script, the vectors and the pending tasks alone. -/
theorem TaskMove.tasks (hmove : TaskMove dir s w s') :
    s'.loggedTasks + s'.inFlight = s.loggedTasks + s.inFlight ∧
      s'.script = s.script ∧ s'.data = s.data ∧ s'.pending = s.pending ∧
      s'.returned = s.returned ∧ s.worker w ≠ .idle := by
  have hkeep : ∀ {p : Phase} {u : World n}, p.carried = (s.worker w).carried →
      u.worker = (s.at w p).worker → u.left = s.left →
      u.loggedTasks + u.inFlight = s.loggedTasks + s.inFlight := by
    intro p u hp hworker hleft
    have hsame := inFlight_at_same hp
    unfold World.loggedTasks World.inFlight at *
    rw [hleft, hworker, hsame]
  cases hmove with
  | construct hw | startClock us hw | compare hw | stopClock us hw | count hw | lock hw
  | makeDirFails hw | makeDir hw | openFile hw | write k hw =>
    exact ⟨hkeep (by rw [hw]; rfl) rfl rfl, rfl, rfl, rfl, rfl, by simp [hw]⟩
  | copyLess hw => exact ⟨rfl, rfl, rfl, rfl, rfl, by simp [hw]⟩
  | nullCounter hw hnull =>
    rcases hw with ⟨start, c, hw⟩ | ⟨micros, c, hw⟩
    · exact ⟨hkeep (by rw [hw]; rfl) rfl rfl, rfl, rfl, rfl, rfl, by simp [hw]⟩
    · exact ⟨hkeep (by rw [hw]; rfl) rfl rfl, rfl, rfl, rfl, rfl, by simp [hw]⟩
  | @unlock r done hw =>
    -- the task leaves the worker and joins the logged ones
    refine ⟨?_, rfl, rfl, rfl, rfl, by simp [hw]⟩
    have hat := inFlight_at s w .idle
    rw [hw] at hat
    have hleft : (↑((s.left ++ [r]).map Record.task) : Multiset Task)
        = s.loggedTasks + {r.task} := by
      rw [List.map_append, ← Multiset.coe_add]
      rfl
    show (↑((s.left ++ [r]).map Record.task) : Multiset Task) + (s.at w .idle).inFlight = _
    rw [hleft, add_assoc, add_comm ({r.task} : Multiset Task), show ({r.task} : Multiset Task)
      = (Phase.inLog r (.writing done [])).carried from rfl, hat]
    show _ + (s.inFlight + 0) = _
    rw [add_zero]

/-- Taking the pending task at a position removes it from what is pending. -/
theorem coe_eraseIdx {xs : List Task} {k : Nat} {t : Task} (h : xs[k]? = some t) :
    (↑(xs.eraseIdx k) : Multiset Task) + {t} = ↑xs := by
  obtain ⟨hk, rfl⟩ := List.getElem?_eq_some_iff.mp h
  rw [add_comm, Multiset.singleton_add, Multiset.cons_coe, Multiset.coe_eq_coe]
  exact List.getElem_cons_eraseIdx_perm hk

/-- Every step keeps the conservation law. -/
theorem TaskInv.step {script : List MainAct} {a : Act n} (hinv : TaskInv script s)
    (h : step dir s a = some s') : TaskInv script s' := by
  obtain ⟨executed, hscript, hdata, htasks⟩ := hinv.conserved
  rcases step_cases h with ⟨act, rest, -, hs, rfl⟩ | ⟨-, hs, hp, hidle, rfl⟩ |
    ⟨w, k, t, -, hw, hk, rfl⟩ | ⟨w, act, -, hmove⟩
  · -- `main` goes on: one more act has been executed
    refine ⟨⟨executed ++ [act], ?_, ?_, ?_⟩, ?_⟩
    · rw [hscript, hs, List.append_assoc, List.singleton_append]
    · show act.vectors s.data = _
      rw [vectorsAfter_append, ← hdata]
      rfl
    · show s.loggedTasks + s.inFlight + ↑(s.pending ++ act.task s.data) = _
      rw [scheduledTasks_append, ← Multiset.coe_add, ← Multiset.coe_add, ← add_assoc, htasks,
        ← hdata, scheduledTasks, scheduledTasks, List.append_nil]
    · intro hret
      have hnil := (hinv.finished hret).1
      rw [hs] at hnil
      exact absurd hnil (by simp)
  · exact ⟨⟨executed, hscript, hdata, htasks⟩, fun _ => ⟨hs, hp, hidle⟩⟩
  · -- a worker takes a task: it is in flight instead of pending
    refine ⟨⟨executed, hscript, hdata, ?_⟩, ?_⟩
    · have hat := inFlight_at s w (.fetched t)
      rw [hw] at hat
      have hflight : (s.at w (.fetched t)).inFlight = s.inFlight + {t} := by
        have hzero : Phase.idle.carried = 0 := rfl
        rw [hzero, add_zero] at hat
        exact hat
      show s.loggedTasks + (s.at w (.fetched t)).inFlight + ↑(s.pending.eraseIdx k) = _
      rw [hflight, add_assoc, add_assoc, add_comm ({t} : Multiset Task), coe_eraseIdx hk,
        ← add_assoc]
      exact htasks
    · intro hret
      have hnil := (hinv.finished hret).2.1
      rw [hnil] at hk
      exact absurd hk (by simp)
  · -- a task goes on or leaves: logged and in flight together stay the same
    obtain ⟨htasks', hs, hd, hp, hr, hne⟩ := hmove.tasks
    refine ⟨⟨executed, by rw [hs]; exact hscript, by rw [hd]; exact hdata, ?_⟩, ?_⟩
    · rw [htasks', hp]
      exact htasks
    · intro hret
      rw [hr] at hret
      exact absurd ((hinv.finished hret).2.2 w) hne

theorem TaskInv.init (script : List MainAct) (fs : FileSystem Char) :
    TaskInv script (World.init n script fs) where
  conserved := by
    refine ⟨[], rfl, rfl, ?_⟩
    simp [World.loggedTasks, World.inFlight, World.init, Phase.carried, scheduledTasks]
  finished h := absurd h (by simp [World.init])

/-! ## Every reachable state -/

/-- The counters and the tasks, over every run. -/
theorem reachable_slotInv {fs : FileSystem Char} {script : List MainAct}
    (hr : Reachable (step dir) (World.init n script fs) s) : SlotInv s :=
  hr.invariant (SlotInv.init script fs) (fun _ _ _ hinv h => hinv.step h)

theorem reachable_taskInv {fs : FileSystem Char} {script : List MainAct}
    (hr : Reachable (step dir) (World.init n script fs) s) : TaskInv script s :=
  hr.invariant (TaskInv.init script fs) (fun _ _ _ hinv h => hinv.step h)

/-- The log files, over every run from an empty run directory. -/
theorem reachable_logInv {fs : FileSystem Char} {script : List MainAct}
    (hdir : fs.node dir = some .dir) (hempty : ∀ c, fs.node (c :: dir) = none)
    (hr : Reachable (step dir) (World.init n script fs) s) : LogInv dir s :=
  hr.invariant (LogInv.init hdir hempty) (fun _ _ _ hinv h => hinv.step h)

end Satf.Measure
