import Satf.Lib.Transition
import Mathlib.Logic.Function.Basic

/-!
# The core of the thread pool

`pool_core` with the policies of `threadpool::pool`: a FIFO scheduler, a
static size, and a destructor that waits for all tasks and terminates the
workers. Its owner constructs it with a number of threads, hands tasks to it
and destroys it; what the owner does in between is a parameter, the `Client`.

Every thread takes one step at a time, in any order. All of the pool's state
is guarded by `m_monitor`, held by at most one thread; taking it is a step of
its own, and what a thread does while it holds the monitor is one or more
steps up to the next release. Two condition variables are waited on:
`m_worker_idle_or_terminated_event` by the owner, and
`m_task_or_terminate_workers_event` by the workers. A waiting thread is
notified or not; once notified it only needs the monitor. A wake-up without a
notification (`spuriousMain`, `spuriousWorker`) may happen at any time but is
nobody's step.

Tasks return normally and threads can be created.
-/

namespace Satf.Pool

open Satf.Lib

/-! ## The owner of the pool -/

/-- What the pool's owner does next. -/
inductive ClientStep (κ τ : Type) where
  | compute (k : κ)
  | schedule (task : τ) (k : κ)
  | finished

/-- The owner's program between the pool's construction and its destruction. -/
structure Client (κ τ : Type) where
  start : κ
  next : κ → ClientStep κ τ

/-! ## States -/

/-- Where the owner is: in `resize`, its own program, `schedule`, `wait` or
`terminate_all_workers`. -/
inductive MainPc (κ τ : Type) (n : Nat) where
  | construct
  | resizeStart
  | resizing
  | client (k : κ)
  | schedule (task : τ) (k : κ)
  | scheduling (task : τ) (k : κ)
  | wait
  | waitTest
  | waitBlocked (notified : Bool)
  | terminate
  | terminating
  | terminateTest
  | terminateBlocked (notified : Bool)
  | joining (workers : List (Fin n))
  | returned

/-- Where a worker is: in `execute_task`, in a task, in `worker_destructed`,
or at the end of its thread. -/
inductive WorkerPc (τ : Type) where
  | absent
  | fetch
  | firstTest
  | loopTest
  | blocked (notified : Bool)
  | running (task : τ)
  | destruct
  | destructing
  | exiting
  | finished

/-- A thread that can hold the monitor. -/
inductive Holder (n : Nat) where
  | main
  | worker (w : Fin n)
  deriving DecidableEq

/-- `pool_core` and the threads that use it, constructed for `n` workers. -/
structure PoolCore (κ τ : Type) (n : Nat) where
  main : MainPc κ τ n
  worker : Fin n → WorkerPc τ
  monitor : Option (Holder n)
  workerCount : Nat
  targetWorkerCount : Nat
  activeWorkerCount : Nat
  scheduler : List τ
  terminateAllWorkers : Bool
  terminatedWorkers : List (Fin n)

variable {κ τ : Type} {n : Nat}

/-- The constructor of `pool_core`. -/
def PoolCore.init : PoolCore κ τ n where
  main := .construct
  worker _ := .absent
  monitor := none
  workerCount := 0
  targetWorkerCount := 0
  activeWorkerCount := 0
  scheduler := []
  terminateAllWorkers := false
  terminatedWorkers := []

/-! ## Condition variables and the monitor -/

/-- `m_worker_idle_or_terminated_event.notify_all()` reaches the owner. -/
def MainPc.notified : MainPc κ τ n → MainPc κ τ n
  | .waitBlocked _ => .waitBlocked true
  | .terminateBlocked _ => .terminateBlocked true
  | pc => pc

/-- `m_task_or_terminate_workers_event.notify_all()` reaches a worker. -/
def WorkerPc.notified : WorkerPc τ → WorkerPc τ
  | .blocked _ => .blocked true
  | pc => pc

/-- The worker waits and has not been notified. -/
def WorkerPc.asleep : WorkerPc τ → Bool
  | .blocked false => true
  | _ => false

/-- The worker's thread has ended. -/
def WorkerPc.ended : WorkerPc τ → Bool
  | .finished => true
  | _ => false

/-- The state with worker `w` at `pc`. -/
def PoolCore.atWorker (s : PoolCore κ τ n) (w : Fin n) (pc : WorkerPc τ) : PoolCore κ τ n :=
  { s with worker := Function.update s.worker w pc }

/-- Every waiting worker notified. -/
def PoolCore.notifyAllTasks (s : PoolCore κ τ n) : PoolCore κ τ n :=
  { s with worker := fun w => (s.worker w).notified }

/-- The owner takes the monitor, if it is free. -/
def PoolCore.lockMain (s : PoolCore κ τ n) (pc : MainPc κ τ n) : Option (PoolCore κ τ n) :=
  match s.monitor with
  | none => some { s with monitor := some .main, main := pc }
  | some _ => none

/-- Worker `w` takes the monitor, if it is free. -/
def PoolCore.lockWorker (s : PoolCore κ τ n) (w : Fin n) (pc : WorkerPc τ) : Option (PoolCore κ τ n) :=
  match s.monitor with
  | none => some { s.atWorker w pc with monitor := some (.worker w) }
  | some _ => none

/-! ## Steps of the owner -/

/-- `resize(n)`, with the monitor held. -/
def resizeStep (client : Client κ τ) (s : PoolCore κ τ n) : Option (PoolCore κ τ n) :=
  if s.terminateAllWorkers then some { s with monitor := none, main := .client client.start }
  else if s.workerCount ≤ n then some { s with targetWorkerCount := n, main := .resizing }
  else
    some { s.notifyAllTasks with
      targetWorkerCount := n, monitor := none, main := .client client.start }

/-- One pass of `while(m_worker_count < m_target_worker_count)`. The target is
`n`, so a worker to create is the `m_worker_count`-th of `n`. -/
def createStep (client : Client κ τ) (s : PoolCore κ τ n) : Option (PoolCore κ τ n) :=
  if s.workerCount < s.targetWorkerCount then
    if h : s.workerCount < n then
      some { s.atWorker ⟨s.workerCount, h⟩ .fetch with
        workerCount := s.workerCount + 1, activeWorkerCount := s.activeWorkerCount + 1 }
    else none
  else some { s with monitor := none, main := .client client.start }

/-- `m_scheduler.push(task)` and `notify_one()`, with the monitor held.
`chosen` is the worker that is notified; nobody is only when nobody sleeps. -/
def scheduleStep (s : PoolCore κ τ n) (task : τ) (k : κ) (chosen : Option (Fin n)) :
    Option (PoolCore κ τ n) :=
  match chosen with
  | some w =>
    if (s.worker w).asleep then
      some { s.atWorker w (.blocked true) with
        scheduler := s.scheduler ++ [task], monitor := none, main := .client k }
    else none
  | none =>
    if ∀ w, (s.worker w).asleep = false then
      some { s with scheduler := s.scheduler ++ [task], monitor := none, main := .client k }
    else none

/-- One step of the owner. -/
def mainStep (client : Client κ τ) (s : PoolCore κ τ n) (chosen : Option (Fin n)) :
    Option (PoolCore κ τ n) :=
  match s.main with
  | .construct => s.lockMain .resizeStart
  | .resizeStart => resizeStep client s
  | .resizing => createStep client s
  | .client k =>
    match client.next k with
    | .compute k => some { s with main := .client k }
    | .schedule task k => some { s with main := .schedule task k }
    | .finished => some { s with main := .wait }
  | .schedule task k => s.lockMain (.scheduling task k)
  | .scheduling task k => scheduleStep s task k chosen
  | .wait => s.lockMain .waitTest
  | .waitTest =>
    -- `while(0 != m_active_worker_count || !m_scheduler.empty())`
    if s.activeWorkerCount ≠ 0 ∨ s.scheduler.isEmpty = false then
      some { s with monitor := none, main := .waitBlocked false }
    else some { s with monitor := none, main := .terminate }
  | .waitBlocked true => s.lockMain .waitTest
  | .waitBlocked false => none
  | .terminate => s.lockMain .terminating
  | .terminating =>
    some { s.notifyAllTasks with
      terminateAllWorkers := true, targetWorkerCount := 0, main := .terminateTest }
  | .terminateTest =>
    -- `while(m_active_worker_count > 0)`
    if 0 < s.activeWorkerCount then
      some { s with monitor := none, main := .terminateBlocked false }
    else some { s with main := .joining s.terminatedWorkers }
  | .terminateBlocked true => s.lockMain .terminateTest
  | .terminateBlocked false => none
  | .joining (w :: ws) =>
    -- `join()` returns once the thread has ended
    if (s.worker w).ended then some { s with main := .joining ws } else none
  | .joining [] => some { s with terminatedWorkers := [], monitor := none, main := .returned }
  | .returned => none

/-! ## Steps of a worker -/

/-- One step of worker `w`. -/
def workerStep (s : PoolCore κ τ n) (w : Fin n) : Option (PoolCore κ τ n) :=
  match s.worker w with
  | .absent => none
  | .fetch => s.lockWorker w .firstTest
  | .firstTest =>
    if s.targetWorkerCount < s.workerCount then
      some { s.atWorker w .destruct with monitor := none }
    else some (s.atWorker w .loopTest)
  | .loopTest =>
    match s.scheduler with
    | [] =>
      if s.targetWorkerCount < s.workerCount then
        some { s.atWorker w .destruct with monitor := none }
      else
        some { s.atWorker w (.blocked false) with
          activeWorkerCount := s.activeWorkerCount - 1, main := s.main.notified, monitor := none }
    | task :: rest =>
      some { s.atWorker w (.running task) with scheduler := rest, monitor := none }
  | .blocked true =>
    (s.lockWorker w .loopTest).map fun s => { s with activeWorkerCount := s.activeWorkerCount + 1 }
  | .blocked false => none
  | .running _ => some (s.atWorker w .fetch)
  | .destruct => s.lockWorker w .destructing
  | .destructing =>
    some { s.atWorker w .exiting with
      workerCount := s.workerCount - 1, activeWorkerCount := s.activeWorkerCount - 1,
      main := s.main.notified, monitor := none,
      terminatedWorkers :=
        if s.terminateAllWorkers then s.terminatedWorkers ++ [w] else s.terminatedWorkers }
  | .exiting => some (s.atWorker w .finished)
  | .finished => none

/-! ## Steps of the system -/

inductive Act (n : Nat) where
  | main (chosen : Option (Fin n))
  | worker (w : Fin n)
  | spuriousMain
  | spuriousWorker (w : Fin n)

/-- A step that some thread takes of its own. -/
def Act.ofThread : Act n → Prop
  | .main _ => True
  | .worker _ => True
  | _ => False

/-- One step of the system. -/
def step (client : Client κ τ) (s : PoolCore κ τ n) : Act n → Option (PoolCore κ τ n)
  | .main chosen => mainStep client s chosen
  | .worker w => workerStep s w
  | .spuriousMain => some { s with main := s.main.notified }
  | .spuriousWorker w => some (s.atWorker w (s.worker w).notified)

/-- The owner has not returned, and no thread can take a step. -/
def Deadlocked (client : Client κ τ) (s : PoolCore κ τ n) : Prop :=
  s.main ≠ .returned ∧ Stuck (step client) Act.ofThread s

/-! ## What one step can do -/

/-- The owner's place once it has taken the monitor it waits for. -/
def MainPc.afterLock : MainPc κ τ n → Option (MainPc κ τ n)
  | .construct => some .resizeStart
  | .schedule task k => some (.scheduling task k)
  | .wait => some .waitTest
  | .waitBlocked true => some .waitTest
  | .terminate => some .terminating
  | .terminateBlocked true => some .terminateTest
  | _ => none

/-- The same for a worker that does not come from a wait. -/
def WorkerPc.afterLock : WorkerPc τ → Option (WorkerPc τ)
  | .fetch => some .firstTest
  | .destruct => some .destructing
  | _ => none

/-- Everything one step of the owner can do. -/
inductive MainMove (client : Client κ τ) (s : PoolCore κ τ n) : PoolCore κ τ n → Prop where
  | lock {pc} (hlock : s.main.afterLock = some pc) (hfree : s.monitor = none) :
      MainMove client s { s with monitor := some .main, main := pc }
  | resizeRefused (hmain : s.main = .resizeStart) (hflag : s.terminateAllWorkers = true) :
      MainMove client s { s with monitor := none, main := .client client.start }
  | resizeUp (hmain : s.main = .resizeStart) (hflag : s.terminateAllWorkers = false)
      (hle : s.workerCount ≤ n) :
      MainMove client s { s with targetWorkerCount := n, main := .resizing }
  | resizeDown (hmain : s.main = .resizeStart) (hflag : s.terminateAllWorkers = false)
      (hgt : n < s.workerCount) :
      MainMove client s { s.notifyAllTasks with
        targetWorkerCount := n, monitor := none, main := .client client.start }
  | create (hmain : s.main = .resizing) (hmore : s.workerCount < s.targetWorkerCount)
      (h : s.workerCount < n) :
      MainMove client s { s.atWorker ⟨s.workerCount, h⟩ .fetch with
        workerCount := s.workerCount + 1, activeWorkerCount := s.activeWorkerCount + 1 }
  | created (hmain : s.main = .resizing) (hall : s.targetWorkerCount ≤ s.workerCount) :
      MainMove client s { s with monitor := none, main := .client client.start }
  | compute {k k'} (hmain : s.main = .client k) (hnext : client.next k = .compute k') :
      MainMove client s { s with main := .client k' }
  | schedule {k task k'} (hmain : s.main = .client k) (hnext : client.next k = .schedule task k') :
      MainMove client s { s with main := .schedule task k' }
  | finish {k} (hmain : s.main = .client k) (hnext : client.next k = .finished) :
      MainMove client s { s with main := .wait }
  | pushNotify {task k w} (hmain : s.main = .scheduling task k)
      (hasleep : (s.worker w).asleep = true) :
      MainMove client s { s.atWorker w (.blocked true) with
        scheduler := s.scheduler ++ [task], monitor := none, main := .client k }
  | push {task k} (hmain : s.main = .scheduling task k)
      (hawake : ∀ w, (s.worker w).asleep = false) :
      MainMove client s { s with
        scheduler := s.scheduler ++ [task], monitor := none, main := .client k }
  | waitBlock (hmain : s.main = .waitTest)
      (hbusy : s.activeWorkerCount ≠ 0 ∨ s.scheduler.isEmpty = false) :
      MainMove client s { s with monitor := none, main := .waitBlocked false }
  | waited (hmain : s.main = .waitTest) :
      MainMove client s { s with monitor := none, main := .terminate }
  | terminateAll (hmain : s.main = .terminating) :
      MainMove client s { s.notifyAllTasks with
        terminateAllWorkers := true, targetWorkerCount := 0, main := .terminateTest }
  | terminateBlock (hmain : s.main = .terminateTest) (hbusy : 0 < s.activeWorkerCount) :
      MainMove client s { s with monitor := none, main := .terminateBlocked false }
  | startJoin (hmain : s.main = .terminateTest) :
      MainMove client s { s with main := .joining s.terminatedWorkers }
  | join {w ws} (hmain : s.main = .joining (w :: ws)) :
      MainMove client s { s with main := .joining ws }
  | joined (hmain : s.main = .joining []) :
      MainMove client s { s with terminatedWorkers := [], monitor := none, main := .returned }

theorem lockMain_eq_some {s s' : PoolCore κ τ n} {pc : MainPc κ τ n}
    (h : s.lockMain pc = some s') :
    s.monitor = none ∧ s' = { s with monitor := some .main, main := pc } := by
  unfold PoolCore.lockMain at h
  split at h
  next hfree => exact ⟨hfree, (Option.some.inj h).symm⟩
  next => exact absurd h (by simp)

theorem lockWorker_eq_some {s s' : PoolCore κ τ n} {w : Fin n} {pc : WorkerPc τ}
    (h : s.lockWorker w pc = some s') :
    s.monitor = none ∧ s' = { s.atWorker w pc with monitor := some (.worker w) } := by
  unfold PoolCore.lockWorker at h
  split at h
  next hfree => exact ⟨hfree, (Option.some.inj h).symm⟩
  next => exact absurd h (by simp)

theorem resizeStep_move {client : Client κ τ} {s s' : PoolCore κ τ n}
    (hmain : s.main = .resizeStart) (h : resizeStep client s = some s') :
    MainMove client s s' := by
  unfold resizeStep at h
  split at h
  next hflag => cases h; exact .resizeRefused hmain hflag
  next hflag =>
    split at h
    next hle => cases h; exact .resizeUp hmain (Bool.eq_false_iff.mpr hflag) hle
    next hgt => cases h; exact .resizeDown hmain (Bool.eq_false_iff.mpr hflag) (by omega)

theorem createStep_move {client : Client κ τ} {s s' : PoolCore κ τ n}
    (hmain : s.main = .resizing) (h : createStep client s = some s') :
    MainMove client s s' := by
  unfold createStep at h
  split at h
  next hmore =>
    split at h
    next hlt => cases h; exact .create hmain hmore hlt
    next => exact absurd h (by simp)
  next hall => cases h; exact .created hmain (by omega)

theorem scheduleStep_move {client : Client κ τ} {s s' : PoolCore κ τ n} {task : τ} {k : κ}
    {chosen : Option (Fin n)} (hmain : s.main = .scheduling task k)
    (h : scheduleStep s task k chosen = some s') : MainMove client s s' := by
  unfold scheduleStep at h
  split at h
  next w =>
    split at h
    next hasleep => cases h; exact .pushNotify hmain hasleep
    next => exact absurd h (by simp)
  next =>
    split at h
    next hawake => cases h; exact .push hmain hawake
    next => exact absurd h (by simp)

theorem mainStep_move {client : Client κ τ} {s s' : PoolCore κ τ n} {chosen : Option (Fin n)}
    (h : mainStep client s chosen = some s') : MainMove client s s' := by
  have hlock : ∀ {pc}, s.main.afterLock = some pc → s.lockMain pc = some s' →
      MainMove client s s' := by
    intro pc hpc hs
    obtain ⟨hfree, rfl⟩ := lockMain_eq_some hs
    exact .lock hpc hfree
  unfold mainStep at h
  split at h
  next hmain => exact hlock (by rw [hmain]; rfl) h
  next hmain => exact resizeStep_move hmain h
  next hmain => exact createStep_move hmain h
  next k hmain =>
    split at h
    next k' hnext => cases h; exact .compute hmain hnext
    next task k' hnext => cases h; exact .schedule hmain hnext
    next hnext => cases h; exact .finish hmain hnext
  next task k hmain => exact hlock (by rw [hmain]; rfl) h
  next task k hmain => exact scheduleStep_move hmain h
  next hmain => exact hlock (by rw [hmain]; rfl) h
  next hmain =>
    split at h
    next hbusy => cases h; exact .waitBlock hmain hbusy
    next => cases h; exact .waited hmain
  next hmain => exact hlock (by rw [hmain]; rfl) h
  next => exact absurd h (by simp)
  next hmain => exact hlock (by rw [hmain]; rfl) h
  next hmain => cases h; exact .terminateAll hmain
  next hmain =>
    split at h
    next hbusy => cases h; exact .terminateBlock hmain hbusy
    next => cases h; exact .startJoin hmain
  next hmain => exact hlock (by rw [hmain]; rfl) h
  next => exact absurd h (by simp)
  next w ws hmain =>
    split at h
    next => cases h; exact .join hmain
    next => exact absurd h (by simp)
  next hmain => cases h; exact .joined hmain
  next => exact absurd h (by simp)

/-- Everything one step of worker `w` can do. -/
inductive WorkerMove (s : PoolCore κ τ n) (w : Fin n) : PoolCore κ τ n → Prop where
  | lock {pc} (hlock : (s.worker w).afterLock = some pc) (hfree : s.monitor = none) :
      WorkerMove s w { s.atWorker w pc with monitor := some (.worker w) }
  | wake (hw : s.worker w = .blocked true) (hfree : s.monitor = none) :
      WorkerMove s w { s.atWorker w .loopTest with
        monitor := some (.worker w), activeWorkerCount := s.activeWorkerCount + 1 }
  | leave (hw : s.worker w = .firstTest ∨ s.worker w = .loopTest)
      (hmany : s.targetWorkerCount < s.workerCount) :
      WorkerMove s w { s.atWorker w .destruct with monitor := none }
  | stay (hw : s.worker w = .firstTest) : WorkerMove s w (s.atWorker w .loopTest)
  | sleep (hw : s.worker w = .loopTest) (hempty : s.scheduler = []) :
      WorkerMove s w { s.atWorker w (.blocked false) with
        activeWorkerCount := s.activeWorkerCount - 1, main := s.main.notified, monitor := none }
  | take {task rest} (hw : s.worker w = .loopTest) (htask : s.scheduler = task :: rest) :
      WorkerMove s w { s.atWorker w (.running task) with scheduler := rest, monitor := none }
  | done {task} (hw : s.worker w = .running task) : WorkerMove s w (s.atWorker w .fetch)
  | destructed (hw : s.worker w = .destructing) :
      WorkerMove s w { s.atWorker w .exiting with
        workerCount := s.workerCount - 1, activeWorkerCount := s.activeWorkerCount - 1,
        main := s.main.notified, monitor := none,
        terminatedWorkers :=
          if s.terminateAllWorkers then s.terminatedWorkers ++ [w] else s.terminatedWorkers }
  | exit (hw : s.worker w = .exiting) : WorkerMove s w (s.atWorker w .finished)

theorem workerStep_move {s s' : PoolCore κ τ n} {w : Fin n} (h : workerStep s w = some s') :
    WorkerMove s w s' := by
  have hlock : ∀ {pc}, (s.worker w).afterLock = some pc → s.lockWorker w pc = some s' →
      WorkerMove s w s' := by
    intro pc hpc hs
    obtain ⟨hfree, rfl⟩ := lockWorker_eq_some hs
    exact .lock hpc hfree
  unfold workerStep at h
  split at h
  next => exact absurd h (by simp)
  next hw => exact hlock (by rw [hw]; rfl) h
  next hw =>
    split at h
    next hmany => cases h; exact .leave (.inl hw) hmany
    next => cases h; exact .stay hw
  next hw =>
    split at h
    next hempty =>
      split at h
      next hmany => cases h; exact .leave (.inr hw) hmany
      next => cases h; exact .sleep hw hempty
    next task rest htask => cases h; exact .take hw htask
  next hw =>
    obtain ⟨t, ht, rfl⟩ := Option.map_eq_some_iff.mp h
    obtain ⟨hfree, rfl⟩ := lockWorker_eq_some ht
    exact .wake hw hfree
  next => exact absurd h (by simp)
  next task hw => cases h; exact .done hw
  next hw => exact hlock (by rw [hw]; rfl) h
  next hw => cases h; exact .destructed hw
  next hw => cases h; exact .exit hw
  next => exact absurd h (by simp)

/-- Everything one step can do. -/
theorem step_cases {client : Client κ τ} {s s' : PoolCore κ τ n} {a : Act n}
    (h : step client s a = some s') :
    MainMove client s s' ∨ (∃ w, WorkerMove s w s') ∨ s' = { s with main := s.main.notified } ∨
      ∃ w, s' = s.atWorker w (s.worker w).notified := by
  cases a with
  | main chosen => exact .inl (mainStep_move h)
  | worker w => exact .inr (.inl ⟨w, workerStep_move h⟩)
  | spuriousMain => exact .inr (.inr (.inl (Option.some.inj h).symm))
  | spuriousWorker w => exact .inr (.inr (.inr ⟨w, (Option.some.inj h).symm⟩))

end Satf.Pool
