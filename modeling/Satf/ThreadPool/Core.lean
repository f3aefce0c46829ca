import Satf.Lib.Simulation
import Satf.ThreadPool.Policies
import Mathlib.Logic.Function.Basic

/-!
# The thread pool

`pool_core` and `worker_thread` for any scheduling policy, with any number of
threads that call the pool: they schedule tasks, clear the scheduler, wait with
or without a threshold and a timestamp, resize the pool, and shut it down. The
size policy is `static_size`: a worker that dies is replaced.

As before every thread takes one step at a time. `m_monitor` is taken in a step
of its own, and held by at most one thread; what a thread does while it holds
it is one or more steps up to the next release. A new worker is counted in the
step that creates it: the thread that creates it holds the monitor, which is
the first thing the worker asks for. Waiting threads are notified or not, and
may wake up without a notification.

A task may throw `boost::thread_interrupted`, which ends its worker's thread
through `worker_died_unexpectedly`; any other exception ends the process. And no
thread may be left for a new worker, which ends `resize`.
-/

namespace Satf.ThreadPool

open Satf.Lib

variable {σ τ ι : Type}

/-! ## States -/

/-- Where a worker is: in `execute_task`, in `worker_destructed`, in
`worker_died_unexpectedly` and the `resize` it calls, or past them. -/
inductive WorkerPc (τ : Type) where
  | fetch
  | firstTest
  | loopTest
  | blocked (notified : Bool)
  | running (task : τ)
  | destruct
  | destructing
  | died
  | dying
  | replacing
  | exiting
  | finished

/-- Where a thread is that calls the pool. -/
inductive CallerPc (τ : Type) where
  | idle
  | schedule (task : τ)
  | scheduling (task : τ)
  | clear
  | clearing
  | wait (timed : Bool) (threshold : Nat)
  | waitTest (timed : Bool) (threshold : Nat)
  | waitBlocked (timed : Bool) (threshold : Nat) (notified : Bool)
  | timedOut
  | resize (workerCount : Nat)
  | resizeStart (workerCount : Nat)
  | resizing
  | terminate (join : Bool)
  | terminating (join : Bool)
  | terminateTest
  | terminateBlocked (notified : Bool)
  | joining (workers : List Nat)

inductive Holder (ι : Type) where
  | caller (i : ι)
  | worker (w : Nat)

structure PoolState (σ τ ι : Type) where
  workerCount : Nat
  targetWorkerCount : Nat
  activeWorkerCount : Nat
  terminateAllWorkers : Bool
  scheduler : σ
  terminatedWorkers : List Nat
  monitor : Option (Holder ι)
  workers : List (WorkerPc τ)
  caller : ι → CallerPc τ

/-- `pool_core()`. -/
def PoolState.init (policy : SchedulingPolicy σ τ) : PoolState σ τ ι where
  workerCount := 0
  targetWorkerCount := 0
  activeWorkerCount := 0
  terminateAllWorkers := false
  scheduler := policy.clear
  terminatedWorkers := []
  monitor := none
  workers := []
  caller := fun _ => .idle

def WorkerPc.asleep : WorkerPc τ → Bool
  | .blocked notified => !notified
  | _ => false

/-- The thread has ended. -/
def WorkerPc.ended : WorkerPc τ → Bool
  | .finished => true
  | _ => false

/-- The place of a waiting worker after a notification. -/
def WorkerPc.notified : WorkerPc τ → WorkerPc τ
  | .blocked _ => .blocked true
  | pc => pc

/-- The same for a caller. -/
def CallerPc.notified : CallerPc τ → CallerPc τ
  | .waitBlocked timed threshold _ => .waitBlocked timed threshold true
  | .terminateBlocked _ => .terminateBlocked true
  | pc => pc

section Updates
variable (s : PoolState σ τ ι)

def PoolState.atWorker (w : Nat) (pc : WorkerPc τ) : PoolState σ τ ι :=
  { s with workers := s.workers.set w pc }

def PoolState.atCaller [DecidableEq ι] (i : ι) (pc : CallerPc τ) : PoolState σ τ ι :=
  { s with caller := Function.update s.caller i pc }

/-- `m_task_or_terminate_workers_event.notify_all()`. -/
def PoolState.notifyAllTasks : PoolState σ τ ι :=
  { s with workers := s.workers.map WorkerPc.notified }

/-- `m_worker_idle_or_terminated_event.notify_all()`. -/
def PoolState.notifyAllIdle : PoolState σ τ ι :=
  { s with caller := fun i => (s.caller i).notified }

/-- `create_and_attach`, and the two counters that are raised after it. -/
def PoolState.create : PoolState σ τ ι :=
  { s with
    workers := s.workers ++ [.fetch]
    workerCount := s.workerCount + 1
    activeWorkerCount := s.activeWorkerCount + 1 }

/-- A worker leaves the count. -/
def PoolState.discount : PoolState σ τ ι :=
  { s.notifyAllIdle with
    workerCount := s.workerCount - 1
    activeWorkerCount := s.activeWorkerCount - 1 }

/-- Worker `w` takes the monitor and goes on at `pc`, if the monitor is free. -/
def PoolState.lockWorker (w : Nat) (pc : WorkerPc τ) : Option (PoolState σ τ ι) :=
  match s.monitor with
  | none => some { s.atWorker w pc with monitor := some (.worker w) }
  | some _ => none

/-- The same for a caller. -/
def PoolState.lockCaller [DecidableEq ι] (i : ι) (pc : CallerPc τ) : Option (PoolState σ τ ι) :=
  match s.monitor with
  | none => some { s.atCaller i pc with monitor := some (.caller i) }
  | some _ => none

/-- Worker `w` leaves the monitor and goes on at `pc`. -/
def PoolState.unlockWorker (w : Nat) (pc : WorkerPc τ) : PoolState σ τ ι :=
  { s.atWorker w pc with monitor := none }

/-- The same for a caller. -/
def PoolState.unlockCaller [DecidableEq ι] (i : ι) (pc : CallerPc τ) : PoolState σ τ ι :=
  { s.atCaller i pc with monitor := none }

/-- The condition of the loop in `wait`. -/
def PoolState.busy (policy : SchedulingPolicy σ τ) (threshold : Nat) : Bool :=
  if threshold = 0 then s.activeWorkerCount != 0 || !policy.empty s.scheduler
  else threshold < s.activeWorkerCount + policy.size s.scheduler

end Updates

/-! ## Calls -/

/-- What a thread may call. `terminate_all_workers` is called by the shutdown
policies. -/
inductive Call (τ : Type) where
  | schedule (task : τ)
  | clear
  | wait (threshold : Nat)
  | timedWait (threshold : Nat)
  | resize (workerCount : Nat)
  | terminateAllWorkers (join : Bool)

/-- `wait_for_all_tasks::shutdown`. -/
def waitForAllTasks : List (Call τ) := [.wait 0, .terminateAllWorkers true]

/-- `wait_for_active_tasks::shutdown`. -/
def waitForActiveTasks : List (Call τ) := [.clear, .wait 0, .terminateAllWorkers true]

/-- `immediately::shutdown`. -/
def immediately : List (Call τ) := [.clear, .terminateAllWorkers false]

/-- Where a call begins. -/
def Call.start : Call τ → CallerPc τ
  | .schedule task => .schedule task
  | .clear => .clear
  | .wait threshold => .wait false threshold
  | .timedWait threshold => .wait true threshold
  | .resize workerCount => .resize workerCount
  | .terminateAllWorkers join => .terminate join

/-- What an observer of the pool's tasks sees. -/
inductive Event (τ : Type) where
  | scheduled (task : τ)
  | cleared (dropped : Multiset τ)
  | started (w : Nat) (task : τ)
  | finished (w : Nat) (task : τ)
  | threw (w : Nat) (task : τ)

variable [DecidableEq ι] (policy : SchedulingPolicy σ τ)

/-! ## Steps of a caller -/

/-- Push, and notify one of the waiting workers if there are any; `chosen` says
which. -/
def scheduleStep (s : PoolState σ τ ι) (i : ι) (task : τ) (chosen : Option Nat) :
    Option (PoolState σ τ ι) :=
  match policy.push s.scheduler task with
  | none => some (s.unlockCaller i .idle)
  | some scheduler =>
    match chosen with
    | some w =>
      if s.workers[w]?.any WorkerPc.asleep then
        some { (s.atWorker w (.blocked true)).unlockCaller i .idle with scheduler := scheduler }
      else none
    | none =>
      if s.workers.any WorkerPc.asleep then none
      else some { s.unlockCaller i .idle with scheduler := scheduler }

/-- One step of caller `i` in a call. `chosen` is whom `notify_one` wakes, and
`created` whether there is a thread for a new worker. -/
def callerStep (s : PoolState σ τ ι) (i : ι) (chosen : Option Nat) (created : Bool) :
    Option (PoolState σ τ ι) :=
  match s.caller i with
  | .idle => none
  | .schedule task => s.lockCaller i (.scheduling task)
  | .scheduling task => scheduleStep policy s i task chosen
  | .clear => s.lockCaller i .clearing
  | .clearing => some { s.unlockCaller i .idle with scheduler := policy.clear }
  | .wait timed threshold => s.lockCaller i (.waitTest timed threshold)
  | .waitTest timed threshold =>
    if s.busy policy threshold then some (s.unlockCaller i (.waitBlocked timed threshold false))
    else some (s.unlockCaller i .idle)
  | .waitBlocked timed threshold true => s.lockCaller i (.waitTest timed threshold)
  | .waitBlocked _ _ false => none
  | .timedOut =>
    match s.monitor with
    | none => some (s.atCaller i .idle)
    | some _ => none
  | .resize workerCount => s.lockCaller i (.resizeStart workerCount)
  | .resizeStart workerCount =>
    if s.terminateAllWorkers then some (s.unlockCaller i .idle)
    else if s.workerCount ≤ workerCount then
      some { s.atCaller i .resizing with targetWorkerCount := workerCount }
    else
      some { s.notifyAllTasks.unlockCaller i .idle with targetWorkerCount := workerCount }
  | .resizing =>
    if s.workerCount < s.targetWorkerCount then
      if created then some s.create else some (s.unlockCaller i .idle)
    else some (s.unlockCaller i .idle)
  | .terminate join => s.lockCaller i (.terminating join)
  | .terminating join =>
    if join then
      some { s.notifyAllTasks.atCaller i .terminateTest with
        terminateAllWorkers := true, targetWorkerCount := 0 }
    else
      some { s.notifyAllTasks.unlockCaller i .idle with
        terminateAllWorkers := true, targetWorkerCount := 0 }
  | .terminateTest =>
    if 0 < s.activeWorkerCount then some (s.unlockCaller i (.terminateBlocked false))
    else some (s.atCaller i (.joining s.terminatedWorkers))
  | .terminateBlocked true => s.lockCaller i .terminateTest
  | .terminateBlocked false => none
  | .joining (w :: ws) =>
    if s.workers[w]?.all WorkerPc.ended then some (s.atCaller i (.joining ws)) else none
  | .joining [] => some { s.unlockCaller i .idle with terminatedWorkers := [] }

/-! ## Steps of a worker -/

/-- One step of worker `w`; a task it runs returns. -/
def workerStep (s : PoolState σ τ ι) (w : Nat) (created : Bool) : Option (PoolState σ τ ι) :=
  match s.workers[w]? with
  | none => none
  | some .fetch => s.lockWorker w .firstTest
  | some .firstTest =>
    if s.targetWorkerCount < s.workerCount then some (s.unlockWorker w .destruct)
    else some (s.atWorker w .loopTest)
  | some .loopTest =>
    if policy.empty s.scheduler then
      if s.targetWorkerCount < s.workerCount then some (s.unlockWorker w .destruct)
      else
        some { s.notifyAllIdle.unlockWorker w (.blocked false) with
          activeWorkerCount := s.activeWorkerCount - 1 }
    else
      (policy.top s.scheduler).map fun task =>
        { s.unlockWorker w (.running task) with scheduler := policy.pop s.scheduler }
  | some (.blocked true) =>
    (s.lockWorker w .loopTest).map fun s => { s with activeWorkerCount := s.activeWorkerCount + 1 }
  | some (.blocked false) => none
  | some (.running _) => some (s.atWorker w .fetch)
  | some .destruct => s.lockWorker w .destructing
  | some .destructing =>
    some { s.discount.unlockWorker w .exiting with
      terminatedWorkers :=
        if s.terminateAllWorkers then s.terminatedWorkers ++ [w] else s.terminatedWorkers }
  | some .died => s.lockWorker w .dying
  | some .dying =>
    if s.terminateAllWorkers then
      some { s.discount.unlockWorker w .exiting with
        terminatedWorkers := s.terminatedWorkers ++ [w] }
    else
      -- `m_size_policy->worker_died_unexpectedly(m_worker_count)`
      some { s.discount.atWorker w .replacing with
        targetWorkerCount := s.discount.workerCount + 1 }
  | some .replacing =>
    if s.workerCount < s.targetWorkerCount then
      if created then some s.create else some (s.unlockWorker w .exiting)
    else some (s.unlockWorker w .exiting)
  | some .exiting => some (s.atWorker w .finished)
  | some .finished => none

/-- The task that worker `w` is running throws `boost::thread_interrupted`, the
one exception that ends only the thread. -/
def throwStep (s : PoolState σ τ ι) (w : Nat) : Option (PoolState σ τ ι) :=
  match s.workers[w]? with
  | some (.running _) => some (s.atWorker w .died)
  | _ => none

/-! ## Steps of the system -/

inductive Act (τ ι : Type) where
  | call (i : ι) (call : Call τ)
  | caller (i : ι) (chosen : Option Nat) (created : Bool)
  | worker (w : Nat) (created : Bool)
  | throws (w : Nat)
  | timeout (i : ι)
  | spuriousCaller (i : ι)
  | spuriousWorker (w : Nat)

/-- A step that some thread takes of its own. A task that runs comes to its end,
so it waits neither for its own pool nor for a future. -/
def Act.ofThread : Act τ ι → Prop
  | .caller .. | .worker .. | .throws _ => True
  | _ => False

def callStep (s : PoolState σ τ ι) (i : ι) (call : Call τ) : Option (PoolState σ τ ι) :=
  match s.caller i with
  | .idle => some (s.atCaller i call.start)
  | _ => none

/-- The timestamp of a timed `wait` is met. -/
def timeoutStep (s : PoolState σ τ ι) (i : ι) : Option (PoolState σ τ ι) :=
  match s.caller i with
  | .waitBlocked true _ _ => some (s.atCaller i .timedOut)
  | _ => none

/-- One step of the system. -/
def step (s : PoolState σ τ ι) : Act τ ι → Option (PoolState σ τ ι)
  | .call i call => callStep s i call
  | .caller i chosen created => callerStep policy s i chosen created
  | .worker w created => workerStep policy s w created
  | .throws w => throwStep s w
  | .timeout i => timeoutStep s i
  | .spuriousCaller i => some (s.atCaller i (s.caller i).notified)
  | .spuriousWorker w => (s.workers[w]?).map fun pc => s.atWorker w pc.notified

/-! ## Histories -/

/-- What a step of caller `i` does to the scheduler. -/
def callerEvents (s : PoolState σ τ ι) (i : ι) : List (Event τ) :=
  match s.caller i with
  | .scheduling task => if (policy.push s.scheduler task).isSome then [.scheduled task] else []
  | .clearing => [.cleared (policy.tasks s.scheduler)]
  | _ => []

/-- What a step of worker `w` does with the tasks. -/
def workerEvents (s : PoolState σ τ ι) (w : Nat) : List (Event τ) :=
  match s.workers[w]? with
  | some .loopTest =>
    if policy.empty s.scheduler then []
    else ((policy.top s.scheduler).map fun task => Event.started w task).toList
  | some (.running task) => [.finished w task]
  | _ => []

/-- What a step reports. -/
def events (s : PoolState σ τ ι) : Act τ ι → List (Event τ)
  | .caller i _ _ => callerEvents policy s i
  | .worker w _ => workerEvents policy s w
  | .throws w =>
    match s.workers[w]? with
    | some (.running task) => [.threw w task]
    | _ => []
  | _ => []

/-- The history of a run of the pool. -/
def poolHistory (as : List (Act τ ι)) : List (Event τ) :=
  history (step policy) (events policy) (PoolState.init policy) as

/-- One caller and one worker: the pool is given a worker and a task, the worker
runs the task and goes to sleep, and the caller waits for that. -/
def oneWorkerRun : List (Act Nat Unit) :=
  let caller := .caller () none true
  let worker := .worker 0 true
  [.call () (.resize 1), caller, caller, caller, caller] ++
    [.call () (.schedule 7), caller, caller] ++
    [worker, worker, worker, worker, worker, worker, worker] ++
    [.call () (.wait 0), caller, caller]

/-! ## What one step can do -/

/-- A caller's place once it has taken the monitor it waits for. -/
def CallerPc.afterLock : CallerPc τ → Option (CallerPc τ)
  | .schedule task => some (.scheduling task)
  | .clear => some .clearing
  | .wait timed threshold | .waitBlocked timed threshold true => some (.waitTest timed threshold)
  | .resize workerCount => some (.resizeStart workerCount)
  | .terminate join => some (.terminating join)
  | .terminateBlocked true => some .terminateTest
  | _ => none

/-- The same for a worker that does not come from a wait. -/
def WorkerPc.afterLock : WorkerPc τ → Option (WorkerPc τ)
  | .fetch => some .firstTest
  | .destruct => some .destructing
  | .died => some .dying
  | _ => none

/-- Everything one step of caller `i` can do, with what it reports. -/
inductive CallerMove (s : PoolState σ τ ι) (i : ι) (created : Bool) :
    PoolState σ τ ι → List (Event τ) → Prop where
  | lock {pc} (hlock : (s.caller i).afterLock = some pc) (hfree : s.monitor = none) :
      CallerMove s i created { s.atCaller i pc with monitor := some (.caller i) } []
  | refused {task} (hcaller : s.caller i = .scheduling task)
      (hpush : policy.push s.scheduler task = none) :
      CallerMove s i created (s.unlockCaller i .idle) []
  | pushNotify {task c w} (hcaller : s.caller i = .scheduling task)
      (hpush : policy.push s.scheduler task = some c)
      (hasleep : s.workers[w]? = some (.blocked false)) :
      CallerMove s i created
        { (s.atWorker w (.blocked true)).unlockCaller i .idle with scheduler := c }
        [.scheduled task]
  | push {task c} (hcaller : s.caller i = .scheduling task)
      (hpush : policy.push s.scheduler task = some c)
      (hawake : ∀ pc ∈ s.workers, pc.asleep = false) :
      CallerMove s i created { s.unlockCaller i .idle with scheduler := c } [.scheduled task]
  | cleared (hcaller : s.caller i = .clearing) :
      CallerMove s i created { s.unlockCaller i .idle with scheduler := policy.clear }
        [.cleared (policy.tasks s.scheduler)]
  | waitBlock {timed threshold} (hcaller : s.caller i = .waitTest timed threshold)
      (hbusy : s.busy policy threshold = true) :
      CallerMove s i created (s.unlockCaller i (.waitBlocked timed threshold false)) []
  | waited {timed threshold} (hcaller : s.caller i = .waitTest timed threshold)
      (hidle : s.busy policy threshold = false) :
      CallerMove s i created (s.unlockCaller i .idle) []
  | gaveUp (hcaller : s.caller i = .timedOut) (hfree : s.monitor = none) :
      CallerMove s i created (s.atCaller i .idle) []
  | resizeRefused {k} (hcaller : s.caller i = .resizeStart k)
      (hflag : s.terminateAllWorkers = true) :
      CallerMove s i created (s.unlockCaller i .idle) []
  | resizeUp {k} (hcaller : s.caller i = .resizeStart k) (hflag : s.terminateAllWorkers = false)
      (hle : s.workerCount ≤ k) :
      CallerMove s i created { s.atCaller i .resizing with targetWorkerCount := k } []
  | resizeDown {k} (hcaller : s.caller i = .resizeStart k) (hflag : s.terminateAllWorkers = false)
      (hgt : k < s.workerCount) :
      CallerMove s i created
        { s.notifyAllTasks.unlockCaller i .idle with targetWorkerCount := k } []
  | create (hcaller : s.caller i = .resizing) (hmore : s.workerCount < s.targetWorkerCount) :
      CallerMove s i created s.create []
  | resized (hcaller : s.caller i = .resizing)
      (hall : created = true → s.targetWorkerCount ≤ s.workerCount) :
      CallerMove s i created (s.unlockCaller i .idle) []
  | terminateJoin (hcaller : s.caller i = .terminating true) :
      CallerMove s i created
        { s.notifyAllTasks.atCaller i .terminateTest with
          terminateAllWorkers := true, targetWorkerCount := 0 } []
  | terminate (hcaller : s.caller i = .terminating false) :
      CallerMove s i created
        { s.notifyAllTasks.unlockCaller i .idle with
          terminateAllWorkers := true, targetWorkerCount := 0 } []
  | terminateBlock (hcaller : s.caller i = .terminateTest) (hbusy : 0 < s.activeWorkerCount) :
      CallerMove s i created (s.unlockCaller i (.terminateBlocked false)) []
  | startJoin (hcaller : s.caller i = .terminateTest) (hidle : s.activeWorkerCount = 0) :
      CallerMove s i created (s.atCaller i (.joining s.terminatedWorkers)) []
  | join {w ws} (hcaller : s.caller i = .joining (w :: ws))
      (hended : s.workers[w]?.all WorkerPc.ended = true) :
      CallerMove s i created (s.atCaller i (.joining ws)) []
  | joined (hcaller : s.caller i = .joining []) :
      CallerMove s i created { s.unlockCaller i .idle with terminatedWorkers := [] } []

/-- Everything one step of worker `w` can do, with what it reports. -/
inductive WorkerMove (s : PoolState σ τ ι) (w : Nat) (created : Bool) :
    PoolState σ τ ι → List (Event τ) → Prop where
  | lock {pc pc'} (hw : s.workers[w]? = some pc) (hlock : pc.afterLock = some pc')
      (hfree : s.monitor = none) :
      WorkerMove s w created { s.atWorker w pc' with monitor := some (.worker w) } []
  | wake (hw : s.workers[w]? = some (.blocked true)) (hfree : s.monitor = none) :
      WorkerMove s w created { s.atWorker w .loopTest with
        monitor := some (.worker w), activeWorkerCount := s.activeWorkerCount + 1 } []
  | leave {pc} (hw : s.workers[w]? = some pc) (hpc : pc = .firstTest ∨ pc = .loopTest)
      (hmany : s.targetWorkerCount < s.workerCount) :
      WorkerMove s w created (s.unlockWorker w .destruct) []
  | stay (hw : s.workers[w]? = some .firstTest) (hfew : s.workerCount ≤ s.targetWorkerCount) :
      WorkerMove s w created (s.atWorker w .loopTest) []
  | sleep (hw : s.workers[w]? = some .loopTest) (hempty : policy.empty s.scheduler = true)
      (hfew : s.workerCount ≤ s.targetWorkerCount) :
      WorkerMove s w created { s.notifyAllIdle.unlockWorker w (.blocked false) with
        activeWorkerCount := s.activeWorkerCount - 1 } []
  | take {task} (hw : s.workers[w]? = some .loopTest) (hsome : policy.empty s.scheduler = false)
      (htop : policy.top s.scheduler = some task) :
      WorkerMove s w created
        { s.unlockWorker w (.running task) with scheduler := policy.pop s.scheduler }
        [.started w task]
  | returned {task} (hw : s.workers[w]? = some (.running task)) :
      WorkerMove s w created (s.atWorker w .fetch) [.finished w task]
  | threw {task} (hw : s.workers[w]? = some (.running task)) :
      WorkerMove s w created (s.atWorker w .died) [.threw w task]
  | destructed (hw : s.workers[w]? = some .destructing) :
      WorkerMove s w created { s.discount.unlockWorker w .exiting with
        terminatedWorkers :=
          if s.terminateAllWorkers then s.terminatedWorkers ++ [w] else s.terminatedWorkers } []
  | diedTerminating (hw : s.workers[w]? = some .dying) (hflag : s.terminateAllWorkers = true) :
      WorkerMove s w created { s.discount.unlockWorker w .exiting with
        terminatedWorkers := s.terminatedWorkers ++ [w] } []
  | replace (hw : s.workers[w]? = some .dying) (hflag : s.terminateAllWorkers = false) :
      WorkerMove s w created { s.discount.atWorker w .replacing with
        targetWorkerCount := s.discount.workerCount + 1 } []
  | create (hw : s.workers[w]? = some .replacing) (hmore : s.workerCount < s.targetWorkerCount) :
      WorkerMove s w created s.create []
  | replaced (hw : s.workers[w]? = some .replacing)
      (hall : created = true → s.targetWorkerCount ≤ s.workerCount) :
      WorkerMove s w created (s.unlockWorker w .exiting) []
  | exit (hw : s.workers[w]? = some .exiting) :
      WorkerMove s w created (s.atWorker w .finished) []

/-- Everything a step can do that no thread takes of its own. -/
inductive OtherMove (s : PoolState σ τ ι) : Act τ ι → PoolState σ τ ι → Prop where
  | call {i} (hcaller : s.caller i = .idle) (call : Call τ) :
      OtherMove s (.call i call) (s.atCaller i call.start)
  | timeout {i threshold notified} (hcaller : s.caller i = .waitBlocked true threshold notified) :
      OtherMove s (.timeout i) (s.atCaller i .timedOut)
  | spuriousCaller (i : ι) :
      OtherMove s (.spuriousCaller i) (s.atCaller i (s.caller i).notified)
  | spuriousWorker {w pc} (hw : s.workers[w]? = some pc) :
      OtherMove s (.spuriousWorker w) (s.atWorker w pc.notified)

variable {policy} {s s' : PoolState σ τ ι} {i : ι} {w : Nat} {created : Bool}

theorem lockCaller_eq_some {pc : CallerPc τ} (h : s.lockCaller i pc = some s') :
    s.monitor = none ∧ s' = { s.atCaller i pc with monitor := some (.caller i) } := by
  unfold PoolState.lockCaller at h
  split at h
  next hfree => exact ⟨hfree, (Option.some.inj h).symm⟩
  next => exact absurd h (by simp)

omit [DecidableEq ι] in
theorem lockWorker_eq_some {pc : WorkerPc τ} (h : s.lockWorker w pc = some s') :
    s.monitor = none ∧ s' = { s.atWorker w pc with monitor := some (.worker w) } := by
  unfold PoolState.lockWorker at h
  split at h
  next hfree => exact ⟨hfree, (Option.some.inj h).symm⟩
  next => exact absurd h (by simp)

theorem scheduleStep_move {task : τ} {chosen : Option Nat} (hcaller : s.caller i = .scheduling task)
    (h : scheduleStep policy s i task chosen = some s') :
    CallerMove policy s i created s'
      (if (policy.push s.scheduler task).isSome then [.scheduled task] else []) := by
  unfold scheduleStep at h
  split at h
  next hpush => cases h; rw [hpush]; exact .refused hcaller hpush
  next c hpush =>
    rw [hpush]
    split at h
    next w =>
      split at h
      next hany =>
        cases h
        obtain ⟨pc, hpc, hasleep⟩ := (Option.any_eq_true _ _).mp hany
        cases pc with
        | blocked notified =>
          cases notified with
          | false => exact .pushNotify hcaller hpush hpc
          | true => cases hasleep
        | _ => cases hasleep
      next => exact absurd h (by simp)
    next =>
      split at h
      next => exact absurd h (by simp)
      next hnone =>
        cases h
        refine .push hcaller hpush ?_
        intro pc hpc
        exact Bool.eq_false_iff.mpr fun hasleep => hnone (List.any_eq_true.mpr ⟨pc, hpc, hasleep⟩)

theorem callerStep_move {chosen : Option Nat} (h : callerStep policy s i chosen created = some s') :
    CallerMove policy s i created s' (callerEvents policy s i) := by
  have hlock : ∀ {pc}, (s.caller i).afterLock = some pc → s.lockCaller i pc = some s' →
      CallerMove policy s i created s' [] := by
    intro pc hpc hs
    obtain ⟨hfree, rfl⟩ := lockCaller_eq_some hs
    exact .lock hpc hfree
  unfold callerStep at h
  unfold callerEvents
  split at h
  next => exact absurd h (by simp)
  next hcaller => rw [hcaller]; exact hlock (by rw [hcaller]; rfl) h
  next task hcaller => rw [hcaller]; exact scheduleStep_move hcaller h
  next hcaller => rw [hcaller]; exact hlock (by rw [hcaller]; rfl) h
  next hcaller => rw [hcaller]; cases h; exact .cleared hcaller
  next hcaller => rw [hcaller]; exact hlock (by rw [hcaller]; rfl) h
  next hcaller =>
    rw [hcaller]
    split at h
    next hbusy => cases h; exact .waitBlock hcaller hbusy
    next hidle => cases h; exact .waited hcaller (Bool.eq_false_iff.mpr hidle)
  next hcaller => rw [hcaller]; exact hlock (by rw [hcaller]; rfl) h
  next => exact absurd h (by simp)
  next hcaller =>
    rw [hcaller]
    split at h
    next hfree => cases h; exact .gaveUp hcaller hfree
    next => exact absurd h (by simp)
  next hcaller => rw [hcaller]; exact hlock (by rw [hcaller]; rfl) h
  next hcaller =>
    rw [hcaller]
    split at h
    next hflag => cases h; exact .resizeRefused hcaller hflag
    next hflag =>
      split at h
      next hle => cases h; exact .resizeUp hcaller (Bool.eq_false_iff.mpr hflag) hle
      next hgt =>
        cases h
        exact .resizeDown hcaller (Bool.eq_false_iff.mpr hflag) (Nat.lt_of_not_le hgt)
  next hcaller =>
    rw [hcaller]
    split at h
    next hmore =>
      split at h
      next => cases h; exact .create hcaller hmore
      next hnot => cases h; exact .resized hcaller fun hcreated => absurd hcreated hnot
    next hall => cases h; exact .resized hcaller fun _ => Nat.le_of_not_lt hall
  next hcaller => rw [hcaller]; exact hlock (by rw [hcaller]; rfl) h
  next join hcaller =>
    rw [hcaller]
    split at h
    next hjoin => cases h; exact .terminateJoin (by rw [hcaller, hjoin])
    next hjoin => cases h; exact .terminate (by rw [hcaller, Bool.eq_false_iff.mpr hjoin])
  next hcaller =>
    rw [hcaller]
    split at h
    next hbusy => cases h; exact .terminateBlock hcaller hbusy
    next hidle => cases h; exact .startJoin hcaller (Nat.eq_zero_of_not_pos hidle)
  next hcaller => rw [hcaller]; exact hlock (by rw [hcaller]; rfl) h
  next => exact absurd h (by simp)
  next w ws hcaller =>
    rw [hcaller]
    split at h
    next hended => cases h; exact .join hcaller hended
    next => exact absurd h (by simp)
  next hcaller => rw [hcaller]; cases h; exact .joined hcaller

omit [DecidableEq ι] in
theorem workerStep_move (h : workerStep policy s w created = some s') :
    WorkerMove policy s w created s' (workerEvents policy s w) := by
  have hlock : ∀ {pc pc'}, s.workers[w]? = some pc → pc.afterLock = some pc' →
      s.lockWorker w pc' = some s' → WorkerMove policy s w created s' [] := by
    intro pc pc' hw hpc hs
    obtain ⟨hfree, rfl⟩ := lockWorker_eq_some hs
    exact .lock hw hpc hfree
  unfold workerStep at h
  unfold workerEvents
  split at h
  next => exact absurd h (by simp)
  next hw => rw [hw]; exact hlock hw rfl h
  next hw =>
    rw [hw]
    split at h
    next hmany => cases h; exact .leave hw (.inl rfl) hmany
    next hfew => cases h; exact .stay hw (Nat.le_of_not_lt hfew)
  next hw =>
    rw [hw]
    show WorkerMove policy s w created s' (if policy.empty s.scheduler then [] else _)
    split at h
    next hempty =>
      rw [if_pos hempty]
      split at h
      next hmany => cases h; exact .leave hw (.inr rfl) hmany
      next hfew => cases h; exact .sleep hw hempty (Nat.le_of_not_lt hfew)
    next hsome =>
      rw [if_neg hsome]
      obtain ⟨task, htop, rfl⟩ := Option.map_eq_some_iff.mp h
      rw [htop]
      exact .take hw (Bool.eq_false_iff.mpr hsome) htop
  next hw =>
    rw [hw]
    obtain ⟨t, ht, rfl⟩ := Option.map_eq_some_iff.mp h
    obtain ⟨hfree, rfl⟩ := lockWorker_eq_some ht
    exact .wake hw hfree
  next => exact absurd h (by simp)
  next task hw => rw [hw]; cases h; exact .returned hw
  next hw => rw [hw]; exact hlock hw rfl h
  next hw => rw [hw]; cases h; exact .destructed hw
  next hw => rw [hw]; exact hlock hw rfl h
  next hw =>
    rw [hw]
    split at h
    next hflag => cases h; exact .diedTerminating hw hflag
    next hflag => cases h; exact .replace hw (Bool.eq_false_iff.mpr hflag)
  next hw =>
    rw [hw]
    split at h
    next hmore =>
      split at h
      next => cases h; exact .create hw hmore
      next hnot => cases h; exact .replaced hw fun hcreated => absurd hcreated hnot
    next hall => cases h; exact .replaced hw fun _ => Nat.le_of_not_lt hall
  next hw => rw [hw]; cases h; exact .exit hw
  next => exact absurd h (by simp)

/-- Everything one step can do. A step that throws counts as one in which
workers can be created. -/
theorem step_cases {a : Act τ ι} (h : step policy s a = some s') :
    (∃ i created, CallerMove policy s i created s' (events policy s a) ∧
        ∃ chosen, a = .caller i chosen created) ∨
      (∃ w created, WorkerMove policy s w created s' (events policy s a) ∧
        (a = .worker w created ∨ a = .throws w ∧ created = true)) ∨
      OtherMove s a s' ∧ events policy s a = [] := by
  cases a with
  | call i call =>
    simp only [step, callStep] at h
    split at h
    next hcaller => cases h; exact .inr (.inr ⟨.call hcaller call, rfl⟩)
    next => exact absurd h (by simp)
  | caller i chosen created => exact .inl ⟨i, created, callerStep_move h, chosen, rfl⟩
  | worker w created => exact .inr (.inl ⟨w, created, workerStep_move h, .inl rfl⟩)
  | throws w =>
    simp only [step, throwStep] at h
    split at h
    next task hw =>
      cases h
      refine .inr (.inl ⟨w, true, ?_, .inr ⟨rfl, rfl⟩⟩)
      simp only [events, hw]
      exact .threw hw
    next => exact absurd h (by simp)
  | timeout i =>
    simp only [step, timeoutStep] at h
    split at h
    next hcaller => cases h; exact .inr (.inr ⟨.timeout hcaller, rfl⟩)
    next => exact absurd h (by simp)
  | spuriousCaller i => cases h; exact .inr (.inr ⟨.spuriousCaller i, rfl⟩)
  | spuriousWorker w =>
    obtain ⟨pc, hw, rfl⟩ := Option.map_eq_some_iff.mp h
    exact .inr (.inr ⟨.spuriousWorker hw, rfl⟩)

end Satf.ThreadPool
