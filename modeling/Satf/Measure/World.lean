import Satf.Lib.Transition
import Satf.Measure.CountLess
import Satf.Measure.Task
import Mathlib.Algebra.BigOperators.Group.Finset.Piecewise
import Mathlib.Data.Multiset.AddSub

/-!
# The measuring run: main, the workers and the log directory

`main` grows its four vectors and hands tasks to the pool; the workers take
tasks, time a sort of a private copy with a counting comparator, and append a
line to `<run dir>/<data set>/<algorithm>` inside `log()`'s critical section.
The pool itself is abstract here: a scheduled task is pending until one worker
takes it, in whatever order, and `main` returns from the pool's destructor
only when nothing is pending and every worker is idle.

The steps of different threads interleave freely. Inside `log()` they are as
small as the file system lets an observer see: the directory, the file, and
then the line in pieces of any size, since nothing fixes where a stream is
flushed before its end.

A `Record` is one call of `log()`: the task, the elapsed time, the count that
`CountLess::count()` returned, and (for the statements only) how many
comparisons the task's own sort has made.
-/

namespace Satf.Measure

open Satf.Lib

/-! ## States -/

/-- A call of `log()` by a task. -/
structure Record where
  task : Task
  micros : Int
  counted : UInt32
  comparisons : Nat
  deriving DecidableEq, Repr

/-- The line the call writes. -/
def Record.line (r : Record) : List Char :=
  logLine (intOfSize r.task.data.length) (unsignedOfMicros r.micros) r.counted

/-- The file the call writes to. -/
def Record.file (dir : Path) (r : Record) : Path :=
  logFile dir r.task.algorithm r.task.dataTraits

/-- Inside the critical section: about to create the data set's directory, to
open the file, or writing, with what is written and what is left to write. -/
inductive LogStage where
  | makeDir
  | openFile
  | writing (done rest : List Char)
  deriving DecidableEq, Repr

/-- Where a worker is in a measuring function. -/
inductive Phase where
  | idle
  | fetched (t : Task)
  | constructed (t : Task)
  | sorting (t : Task) (start : Int) (comparisons : Nat)
  | sorted (t : Task) (micros : Int) (comparisons : Nat)
  | atLog (r : Record)
  | inLog (r : Record) (stage : LogStage)
  /-- a null counter was read -/
  | nullRead (t : Task)
  /-- an exception of the file system left the task -/
  | threw (r : Record)
  deriving DecidableEq, Repr

/-- `main`, `n` workers and the file system; `left` lists the calls of `log()`
that have left the critical section, in that order. -/
structure World (n : Nat) where
  script : List MainAct
  data : Vectors
  pending : List Task
  worker : Fin n → Phase
  slot : Fin n → Slot
  logMutex : Option (Fin n)
  fs : FileSystem Char
  left : List Record
  returned : Bool

variable {n : Nat}

/-- The state before `main` does anything with its vectors. -/
def World.init (n : Nat) (script : List MainAct) (fs : FileSystem Char) : World n where
  script := script
  data := emptyVectors
  pending := []
  worker _ := .idle
  slot _ := none
  logMutex := none
  fs := fs
  left := []
  returned := false

/-- The state with worker `w` in phase `p`. -/
def World.at (s : World n) (w : Fin n) (p : Phase) : World n :=
  { s with worker := Function.update s.worker w p }

/-- The state with worker `w`'s comparison counter set. -/
def World.withSlot (s : World n) (w : Fin n) (c : Slot) : World n :=
  { s with slot := Function.update s.slot w c }

/-! ## Steps -/

/-- A step of a task, with what the clock or the sort supplies to it. -/
inductive TaskAct where
  | construct
  | startClock (us : Int)
  | copyLess
  | compare (a b : Int)
  | stopClock (us : Int)
  | count
  | lock
  | makeDir
  | openFile
  | write (k : Nat)
  | unlock
  deriving DecidableEq, Repr

/-- One step of a measuring function on worker `w`, writing under `dir`. -/
def taskStep (dir : Path) (s : World n) (w : Fin n) (act : TaskAct) : Option (World n) :=
  match s.worker w, act with
  | .fetched t, .construct =>
    some ((s.withSlot w (CountLess.construct (s.slot w))).at w (.constructed t))
  | .constructed t, .startClock us => some (s.at w (.sorting t us 0))
  -- the sort copies its comparator and calls the copies, as often as it likes
  | .sorting _ _ _, .copyLess => some s
  | .sorting t start c, .compare a b =>
    match CountLess.call (lessOf (α := Int)) (s.slot w) a b with
    | none => some (s.at w (.nullRead t))
    | some (_, slot) => some ((s.withSlot w slot).at w (.sorting t start (c + 1)))
  | .sorting t start c, .stopClock us => some (s.at w (.sorted t (us - start) c))
  | .sorted t micros c, .count =>
    match CountLess.count (s.slot w) with
    | none => some (s.at w (.nullRead t))
    | some (counted, slot) => some ((s.withSlot w slot).at w (.atLog ⟨t, micros, counted, c⟩))
  | .atLog r, .lock =>
    if s.logMutex = none then some { s.at w (.inLog r .makeDir) with logMutex := some w }
    else none
  | .inLog r .makeDir, .makeDir =>
    match s.fs.createDirectory (r.task.dataTraits.name :: dir) with
    -- `filesystem_error`: the lock guard unlocks, the exception leaves the task
    | none => some { s.at w (.threw r) with logMutex := none }
    | some (fs, _) => some { s.at w (.inLog r .openFile) with fs := fs }
  | .inLog r .openFile, .openFile =>
    some { s.at w (.inLog r (.writing [] r.line)) with fs := s.fs.openAppend (r.file dir) }
  | .inLog r (.writing done rest), .write k =>
    if 0 < k ∧ k ≤ rest.length then
      some { s.at w (.inLog r (.writing (done ++ rest.take k) (rest.drop k))) with
        fs := s.fs.append (r.file dir) (rest.take k) }
    else none
  | .inLog r (.writing _ []), .unlock =>
    some { s.at w .idle with logMutex := none, left := s.left ++ [r] }
  | _, _ => none

/-- Who moves: `main` with its next act, `main` returning, worker `w` taking
the pending task at position `k`, or a task on worker `w`. -/
inductive Act (n : Nat) where
  | main
  | ret
  | fetch (w : Fin n) (k : Nat)
  | task (w : Fin n) (act : TaskAct)

/-- One step of the run. -/
def step (dir : Path) (s : World n) : Act n → Option (World n)
  | .main =>
    match s.script with
    | [] => none
    | act :: rest =>
      some { s with script := rest, data := act.vectors s.data,
                    pending := s.pending ++ act.task s.data }
  | .ret =>
    if s.script = [] ∧ s.pending = [] ∧ ∀ w, s.worker w = .idle then
      some { s with returned := true }
    else none
  | .fetch w k =>
    match s.worker w, s.pending[k]? with
    | .idle, some t => some { s.at w (.fetched t) with pending := s.pending.eraseIdx k }
    | _, _ => none
  | .task w act => taskStep dir s w act

/-! ## What one step of a task can do -/

/-- Everything one step of a task on worker `w` can do, case by case. -/
inductive TaskMove (dir : Path) (s : World n) (w : Fin n) : World n → Prop where
  | construct {t} (hw : s.worker w = .fetched t) :
      TaskMove dir s w ((s.withSlot w (CountLess.construct (s.slot w))).at w (.constructed t))
  | startClock {t} (us : Int) (hw : s.worker w = .constructed t) :
      TaskMove dir s w (s.at w (.sorting t us 0))
  | copyLess {t start c} (hw : s.worker w = .sorting t start c) : TaskMove dir s w s
  | compare {t start c count} (hw : s.worker w = .sorting t start c)
      (hslot : s.slot w = some count) :
      TaskMove dir s w ((s.withSlot w (some (count + 1))).at w (.sorting t start (c + 1)))
  | stopClock {t start c} (us : Int) (hw : s.worker w = .sorting t start c) :
      TaskMove dir s w (s.at w (.sorted t (us - start) c))
  | count {t micros c counted} (hw : s.worker w = .sorted t micros c)
      (hslot : s.slot w = some counted) :
      TaskMove dir s w ((s.withSlot w (some 0)).at w (.atLog ⟨t, micros, counted, c⟩))
  | nullCounter {t} (hw : (∃ start c, s.worker w = .sorting t start c) ∨
        ∃ micros c, s.worker w = .sorted t micros c) (hslot : s.slot w = none) :
      TaskMove dir s w (s.at w (.nullRead t))
  | lock {r} (hw : s.worker w = .atLog r) (hfree : s.logMutex = none) :
      TaskMove dir s w { s.at w (.inLog r .makeDir) with logMutex := some w }
  | makeDirFails {r} (hw : s.worker w = .inLog r .makeDir)
      (hfs : s.fs.createDirectory (r.task.dataTraits.name :: dir) = none) :
      TaskMove dir s w { s.at w (.threw r) with logMutex := none }
  | makeDir {r fs created} (hw : s.worker w = .inLog r .makeDir)
      (hfs : s.fs.createDirectory (r.task.dataTraits.name :: dir) = some (fs, created)) :
      TaskMove dir s w { s.at w (.inLog r .openFile) with fs := fs }
  | openFile {r} (hw : s.worker w = .inLog r .openFile) :
      TaskMove dir s w
        { s.at w (.inLog r (.writing [] r.line)) with fs := s.fs.openAppend (r.file dir) }
  | write {r done rest} (k : Nat) (hw : s.worker w = .inLog r (.writing done rest))
      (hk : 0 < k ∧ k ≤ rest.length) :
      TaskMove dir s w
        { s.at w (.inLog r (.writing (done ++ rest.take k) (rest.drop k))) with
          fs := s.fs.append (r.file dir) (rest.take k) }
  | unlock {r done} (hw : s.worker w = .inLog r (.writing done [])) :
      TaskMove dir s w { s.at w .idle with logMutex := none, left := s.left ++ [r] }

theorem taskStep_move {dir : Path} {s s' : World n} {w : Fin n} {act : TaskAct}
    (h : taskStep dir s w act = some s') : TaskMove dir s w s' := by
  unfold taskStep at h
  split at h
  next t hw => cases h; exact .construct hw
  next t us hw => cases h; exact .startClock us hw
  next hw => cases h; exact .copyLess hw
  next t start c a b hw =>
    cases hs : s.slot w with
    | none => rw [hs] at h; cases h; exact .nullCounter (.inl ⟨_, _, hw⟩) hs
    | some count => rw [hs] at h; cases h; exact .compare hw hs
  next t start c us hw => cases h; exact .stopClock us hw
  next t micros c hw =>
    cases hs : s.slot w with
    | none => rw [hs] at h; cases h; exact .nullCounter (.inr ⟨_, _, hw⟩) hs
    | some counted => rw [hs] at h; cases h; exact .count hw hs
  next r hw =>
    split at h
    next hfree => cases h; exact .lock hw hfree
    next => exact absurd h (by simp)
  next r hw =>
    split at h
    next hfs => cases h; exact .makeDirFails hw hfs
    next fs created hfs => cases h; exact .makeDir hw hfs
  next r hw => cases h; exact .openFile hw
  next r done rest k hw =>
    split at h
    next hk => cases h; exact .write k hw hk
    next => exact absurd h (by simp)
  next r done hw => cases h; exact .unlock hw
  next => exact absurd h (by simp)

/-- Everything one step of the run can do. -/
theorem step_cases {dir : Path} {s s' : World n} {a : Act n} (h : step dir s a = some s') :
    (∃ act rest, a = .main ∧ s.script = act :: rest ∧
      s' = { s with script := rest, data := act.vectors s.data,
                    pending := s.pending ++ act.task s.data }) ∨
    (a = .ret ∧ s.script = [] ∧ s.pending = [] ∧ (∀ w, s.worker w = .idle) ∧
      s' = { s with returned := true }) ∨
    (∃ w k t, a = .fetch w k ∧ s.worker w = .idle ∧ s.pending[k]? = some t ∧
      s' = { s.at w (.fetched t) with pending := s.pending.eraseIdx k }) ∨
    ∃ w act, a = .task w act ∧ TaskMove dir s w s' := by
  cases a with
  | main =>
    simp only [step] at h
    split at h
    next => exact absurd h (by simp)
    next act rest hs =>
      cases h
      exact .inl ⟨act, rest, rfl, hs, rfl⟩
  | ret =>
    simp only [step] at h
    split at h
    next hidle =>
      cases h
      exact .inr (.inl ⟨rfl, hidle.1, hidle.2.1, hidle.2.2, rfl⟩)
    next => exact absurd h (by simp)
  | fetch w k =>
    simp only [step] at h
    split at h
    next t hw hk =>
      cases h
      exact .inr (.inr (.inl ⟨w, k, t, rfl, hw, hk, rfl⟩))
    next => exact absurd h (by simp)
  | task w act => exact .inr (.inr (.inr ⟨w, act, rfl, taskStep_move h⟩))

end Satf.Measure
