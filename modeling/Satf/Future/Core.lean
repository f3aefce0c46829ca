import Satf.Lib.Simulation
import Mathlib.Logic.Function.Basic

/-!
# Futures

`future_impl` and `future_impl_task_func`: the state that the handles of one
future share with the task that is to fulfil it. `schedule` makes the two and
hands the task to a pool; one thread runs it, any number of others hold the
handle and call what they like, in any order and at the same time.

Every access to a shared field is a step of its own. `set_value`, `wait`,
`timed_wait` and `get` hold `m_monitor` between taking it and leaving;
`ready`, `cancel`, `is_cancelled` and `set_execution_status` read and write
without it. Threads waiting for `m_condition_ready` are notified or not, and
may wake up without a notification.

The constructor gives `m_executing` no value and `m_result` none that was set:
the first is whatever memory holds, a parameter here, and the second is `none`
until it is assigned. `get` answers with a reference to `m_result`, through
which its caller reads after the monitor is free again.

The task's function returns a value, throws, or is empty; which is not for the
future to choose.
-/

namespace Satf.Future

open Satf.Lib

variable {ρ ι : Type}

/-! ## States -/

/-- Where the task is: with the pool, in `operator()`, or in `set_value`. -/
inductive TaskPc (ρ : Type) where
  | scheduled
  | testFunction
  | setExecuting
  | testCancelled
  | calling
  | setValue (r : ρ)
  | valueTestReady (r : ρ)
  | valueTestCancelled (r : ρ)
  | assign (r : ρ)
  | publish
  | notify
  | unlock
  | clearExecuting
  | done
  | threw
  | dropped

/-- The calls that wait. -/
inductive WaitCall where
  | wait
  | timedWait
  | get
  deriving DecidableEq

/-- Where a holder of the future is. In `leave` it holds the monitor and is
about to return, with whether the future was ready. -/
inductive UserPc where
  | idle
  | lock (call : WaitCall)
  | test (call : WaitCall)
  | blocked (call : WaitCall) (notified : Bool)
  | timedOut
  | leave (call : WaitCall) (ready : Bool)
  | read
  | cancelTestReady
  | cancelTestExecuting
  | cancelWrite
  deriving DecidableEq

inductive Holder (ι : Type) where
  | task
  | user (i : ι)

structure FutureImpl (ρ ι : Type) where
  ready : Bool
  result : Option ρ
  isCancelled : Bool
  executing : Bool
  monitor : Option (Holder ι)
  task : TaskPc ρ
  user : ι → UserPc

/-- `schedule` has made the future and handed the task to the pool. -/
def FutureImpl.init (executing : Bool) : FutureImpl ρ ι where
  ready := false
  result := none
  isCancelled := false
  executing := executing
  monitor := none
  task := .scheduled
  user := fun _ => .idle

/-- The place of a waiting user after a notification. -/
def UserPc.notified : UserPc → UserPc
  | .blocked call _ => .blocked call true
  | pc => pc

def FutureImpl.atUser [DecidableEq ι] (s : FutureImpl ρ ι) (i : ι) (pc : UserPc) :
    FutureImpl ρ ι :=
  { s with user := Function.update s.user i pc }

/-- The task takes the monitor and goes on at `pc`, if the monitor is free. -/
def FutureImpl.lockTask (s : FutureImpl ρ ι) (pc : TaskPc ρ) : Option (FutureImpl ρ ι) :=
  match s.monitor with
  | none => some { s with monitor := some .task, task := pc }
  | some _ => none

/-- The same for a user. -/
def FutureImpl.lockUser [DecidableEq ι] (s : FutureImpl ρ ι) (i : ι) (pc : UserPc) :
    Option (FutureImpl ρ ι) :=
  match s.monitor with
  | none => some { s.atUser i pc with monitor := some (.user i) }
  | some _ => none

/-! ## Steps of the task -/

/-- One step of the task; `calling` is left by the function alone. -/
def taskStep (hasFunction : Bool) (s : FutureImpl ρ ι) : Option (FutureImpl ρ ι) :=
  match s.task with
  | .scheduled => some { s with task := .testFunction }
  | .testFunction =>
    if hasFunction then some { s with task := .setExecuting } else some { s with task := .done }
  | .setExecuting => some { s with executing := true, task := .testCancelled }
  | .testCancelled =>
    if s.isCancelled then some { s with task := .clearExecuting }
    else some { s with task := .calling }
  | .calling => none
  | .setValue r => s.lockTask (.valueTestReady r)
  -- `if(!m_ready && !m_is_cancelled)`
  | .valueTestReady r =>
    if s.ready then some { s with task := .unlock }
    else some { s with task := .valueTestCancelled r }
  | .valueTestCancelled r =>
    if s.isCancelled then some { s with task := .unlock } else some { s with task := .assign r }
  | .assign r => some { s with result := some r, task := .publish }
  | .publish => some { s with ready := true, task := .notify }
  | .notify => some { s with user := fun i => (s.user i).notified, task := .unlock }
  | .unlock => some { s with monitor := none, task := .clearExecuting }
  | .clearExecuting => some { s with executing := false, task := .done }
  | .done | .threw | .dropped => none

/-! ## Steps of a user -/

/-- What a user may call. -/
inductive Call where
  | ready
  | isCancelled
  | cancel
  | wait (call : WaitCall)

/-- User `i` calls; `ready` and `is_cancelled` are one read. -/
def callStep [DecidableEq ι] (s : FutureImpl ρ ι) (i : ι) (call : Call) :
    Option (FutureImpl ρ ι) :=
  match s.user i with
  | .idle =>
    match call with
    | .ready | .isCancelled => some s
    | .cancel => some (s.atUser i .cancelTestReady)
    | .wait call => some (s.atUser i (.lock call))
  | _ => none

/-- One step of user `i` in a call. -/
def userStep [DecidableEq ι] (s : FutureImpl ρ ι) (i : ι) : Option (FutureImpl ρ ι) :=
  match s.user i with
  | .idle => none
  | .lock call => s.lockUser i (.test call)
  | .test call =>
    -- `while(!m_ready)`
    if s.ready then some (s.atUser i (.leave call true))
    else some { s.atUser i (.blocked call false) with monitor := none }
  | .blocked call true => s.lockUser i (.test call)
  | .blocked _ false => none
  | .timedOut => s.lockUser i (.leave .timedWait false)
  | .leave call _ =>
    some { s.atUser i (if call = .get then .read else .idle) with monitor := none }
  | .read => some (s.atUser i .idle)
  -- `if(!m_ready || m_executing)`
  | .cancelTestReady =>
    if s.ready then some (s.atUser i .cancelTestExecuting) else some (s.atUser i .cancelWrite)
  | .cancelTestExecuting =>
    if s.executing then some (s.atUser i .cancelWrite) else some (s.atUser i .idle)
  | .cancelWrite => some { s.atUser i .idle with isCancelled := true }

/-! ## Steps of the system -/

/-- Who moves. The pool's `clear` drops a task that no worker has taken. -/
inductive Act (ρ ι : Type) where
  | task
  | returns (r : ρ)
  | throws
  | drop
  | call (i : ι) (call : Call)
  | user (i : ι)
  | timeout (i : ι)
  | spurious (i : ι)

/-- The timestamp of a `timed_wait` is met. -/
def timeoutStep [DecidableEq ι] (s : FutureImpl ρ ι) (i : ι) : Option (FutureImpl ρ ι) :=
  match s.user i with
  | .blocked .timedWait _ => some (s.atUser i .timedOut)
  | _ => none

/-- The function returns or throws. -/
def functionStep (s : FutureImpl ρ ι) (next : TaskPc ρ) : Option (FutureImpl ρ ι) :=
  match s.task with
  | .calling => some { s with task := next }
  | _ => none

/-- The pool drops the task. -/
def dropStep (s : FutureImpl ρ ι) : Option (FutureImpl ρ ι) :=
  match s.task with
  | .scheduled => some { s with task := .dropped }
  | _ => none

/-- One step of the system. -/
def step [DecidableEq ι] (hasFunction : Bool) (s : FutureImpl ρ ι) :
    Act ρ ι → Option (FutureImpl ρ ι)
  | .task => taskStep hasFunction s
  | .returns r => functionStep s (.setValue r)
  | .throws => functionStep s .threw
  | .drop => dropStep s
  | .call i call => callStep s i call
  | .user i => userStep s i
  | .timeout i => timeoutStep s i
  | .spurious i => some (s.atUser i (s.user i).notified)

/-! ## Histories -/

/-- What an observer of the future sees: the function called and returning,
and what the calls answer. -/
inductive Event (ρ ι : Type) where
  | called
  | returned (r : ρ)
  | ready (i : ι) (answer : Bool)
  | isCancelled (i : ι) (answer : Bool)
  | cancel (i : ι) (answer : Bool)
  | waited (i : ι)
  | timedWaited (i : ι) (answer : Bool)
  | got (i : ι) (value : Option ρ)

/-- What user `i` is answered by its next step. -/
def userEvents (s : FutureImpl ρ ι) (i : ι) : List (Event ρ ι) :=
  match s.user i with
  | .leave .wait _ => [.waited i]
  | .leave .timedWait ready => [.timedWaited i ready]
  | .read => [.got i s.result]
  | .cancelTestExecuting => if s.executing then [] else [.cancel i false]
  | .cancelWrite => [.cancel i true]
  | _ => []

/-- What a step reports. -/
def events (s : FutureImpl ρ ι) : Act ρ ι → List (Event ρ ι)
  | .task =>
    match s.task with
    | .testCancelled => if s.isCancelled then [] else [.called]
    | _ => []
  | .returns r => [.returned r]
  | .call i .ready => [.ready i s.ready]
  | .call i .isCancelled => [.isCancelled i s.isCancelled]
  | .user i => userEvents s i
  | _ => []

/-- The history of a run of the future. -/
def futureHistory [DecidableEq ι] (hasFunction executing : Bool) (as : List (Act ρ ι)) :
    List (Event ρ ι) :=
  history (step hasFunction) events (FutureImpl.init executing) as

/-! ## What one step can do -/

/-- Everything one step of the task can do, with what it reports. -/
inductive TaskMove (hasFunction : Bool) (s : FutureImpl ρ ι) :
    FutureImpl ρ ι → List (Event ρ ι) → Prop where
  | fetched (htask : s.task = .scheduled) :
      TaskMove hasFunction s { s with task := .testFunction } []
  | dropped (htask : s.task = .scheduled) : TaskMove hasFunction s { s with task := .dropped } []
  | noFunction (htask : s.task = .testFunction) (hempty : hasFunction = false) :
      TaskMove hasFunction s { s with task := .done } []
  | start (htask : s.task = .testFunction) (hfunction : hasFunction = true) :
      TaskMove hasFunction s { s with task := .setExecuting } []
  | setExecuting (htask : s.task = .setExecuting) :
      TaskMove hasFunction s { s with executing := true, task := .testCancelled } []
  | skip (htask : s.task = .testCancelled) (hcancelled : s.isCancelled = true) :
      TaskMove hasFunction s { s with task := .clearExecuting } []
  | call (htask : s.task = .testCancelled) (hcancelled : s.isCancelled = false) :
      TaskMove hasFunction s { s with task := .calling } [.called]
  | returned (htask : s.task = .calling) (r : ρ) :
      TaskMove hasFunction s { s with task := .setValue r } [.returned r]
  | threw (htask : s.task = .calling) : TaskMove hasFunction s { s with task := .threw } []
  | lock {r} (htask : s.task = .setValue r) (hfree : s.monitor = none) :
      TaskMove hasFunction s { s with monitor := some .task, task := .valueTestReady r } []
  | alreadyReady {r} (htask : s.task = .valueTestReady r) (hready : s.ready = true) :
      TaskMove hasFunction s { s with task := .unlock } []
  | notReady {r} (htask : s.task = .valueTestReady r) (hready : s.ready = false) :
      TaskMove hasFunction s { s with task := .valueTestCancelled r } []
  | discard {r} (htask : s.task = .valueTestCancelled r) (hcancelled : s.isCancelled = true) :
      TaskMove hasFunction s { s with task := .unlock } []
  | accept {r} (htask : s.task = .valueTestCancelled r) (hcancelled : s.isCancelled = false) :
      TaskMove hasFunction s { s with task := .assign r } []
  | assign {r} (htask : s.task = .assign r) :
      TaskMove hasFunction s { s with result := some r, task := .publish } []
  | publish (htask : s.task = .publish) :
      TaskMove hasFunction s { s with ready := true, task := .notify } []
  | notify (htask : s.task = .notify) :
      TaskMove hasFunction s { s with user := fun i => (s.user i).notified, task := .unlock } []
  | unlock (htask : s.task = .unlock) :
      TaskMove hasFunction s { s with monitor := none, task := .clearExecuting } []
  | finish (htask : s.task = .clearExecuting) :
      TaskMove hasFunction s { s with executing := false, task := .done } []

theorem taskStep_move {hasFunction : Bool} {s s' : FutureImpl ρ ι}
    (h : taskStep hasFunction s = some s') : TaskMove hasFunction s s' (events s .task) := by
  unfold taskStep at h
  unfold events
  split at h
  next htask => rw [htask]; cases h; exact .fetched htask
  next htask =>
    rw [htask]
    split at h
    next hfunction => cases h; exact .start htask hfunction
    next hempty => cases h; exact .noFunction htask (Bool.eq_false_iff.mpr hempty)
  next htask => rw [htask]; cases h; exact .setExecuting htask
  next htask =>
    rw [htask]
    show TaskMove hasFunction s s' (if s.isCancelled then [] else [.called])
    split at h
    next hcancelled => cases h; rw [if_pos hcancelled]; exact .skip htask hcancelled
    next hcancelled =>
      cases h
      rw [if_neg hcancelled]
      exact .call htask (Bool.eq_false_iff.mpr hcancelled)
  next => exact absurd h (by simp)
  next r htask =>
    rw [htask]
    unfold FutureImpl.lockTask at h
    split at h
    next hfree => cases h; exact .lock htask hfree
    next => exact absurd h (by simp)
  next r htask =>
    rw [htask]
    split at h
    next hready => cases h; exact .alreadyReady htask hready
    next hready => cases h; exact .notReady htask (Bool.eq_false_iff.mpr hready)
  next r htask =>
    rw [htask]
    split at h
    next hcancelled => cases h; exact .discard htask hcancelled
    next hcancelled => cases h; exact .accept htask (Bool.eq_false_iff.mpr hcancelled)
  next r htask => rw [htask]; cases h; exact .assign htask
  next htask => rw [htask]; cases h; exact .publish htask
  next htask => rw [htask]; cases h; exact .notify htask
  next htask => rw [htask]; cases h; exact .unlock htask
  next htask => rw [htask]; cases h; exact .finish htask
  next => exact absurd h (by simp)
  next => exact absurd h (by simp)
  next => exact absurd h (by simp)

/-- Everything a call or one step of user `i` can do, with what it reports. -/
inductive UserMove [DecidableEq ι] (s : FutureImpl ρ ι) (i : ι) :
    FutureImpl ρ ι → List (Event ρ ι) → Prop where
  | ready (huser : s.user i = .idle) : UserMove s i s [.ready i s.ready]
  | isCancelled (huser : s.user i = .idle) : UserMove s i s [.isCancelled i s.isCancelled]
  | cancel (huser : s.user i = .idle) : UserMove s i (s.atUser i .cancelTestReady) []
  | wait (huser : s.user i = .idle) (call : WaitCall) : UserMove s i (s.atUser i (.lock call)) []
  | lock {call} (huser : s.user i = .lock call ∨ s.user i = .blocked call true)
      (hfree : s.monitor = none) :
      UserMove s i { s.atUser i (.test call) with monitor := some (.user i) } []
  | met {call} (huser : s.user i = .test call) (hready : s.ready = true) :
      UserMove s i (s.atUser i (.leave call true)) []
  | block {call} (huser : s.user i = .test call) (hready : s.ready = false) :
      UserMove s i { s.atUser i (.blocked call false) with monitor := none } []
  | timeout {notified} (huser : s.user i = .blocked .timedWait notified) :
      UserMove s i (s.atUser i .timedOut) []
  | giveUp (huser : s.user i = .timedOut) (hfree : s.monitor = none) :
      UserMove s i { s.atUser i (.leave .timedWait false) with monitor := some (.user i) } []
  | waited {ready} (huser : s.user i = .leave .wait ready) :
      UserMove s i { s.atUser i .idle with monitor := none } [.waited i]
  | timedWaited {ready} (huser : s.user i = .leave .timedWait ready) :
      UserMove s i { s.atUser i .idle with monitor := none } [.timedWaited i ready]
  | get {ready} (huser : s.user i = .leave .get ready) :
      UserMove s i { s.atUser i .read with monitor := none } []
  | got (huser : s.user i = .read) : UserMove s i (s.atUser i .idle) [.got i s.result]
  | cancelReady (huser : s.user i = .cancelTestReady) (hready : s.ready = true) :
      UserMove s i (s.atUser i .cancelTestExecuting) []
  | cancelNotReady (huser : s.user i = .cancelTestReady) (hready : s.ready = false) :
      UserMove s i (s.atUser i .cancelWrite) []
  | cancelExecuting (huser : s.user i = .cancelTestExecuting) (hexecuting : s.executing = true) :
      UserMove s i (s.atUser i .cancelWrite) []
  | cancelTooLate (huser : s.user i = .cancelTestExecuting) (hexecuting : s.executing = false) :
      UserMove s i (s.atUser i .idle) [.cancel i false]
  | cancelled (huser : s.user i = .cancelWrite) :
      UserMove s i { s.atUser i .idle with isCancelled := true } [.cancel i true]

variable [DecidableEq ι] {hasFunction : Bool} {s s' : FutureImpl ρ ι} {i : ι}

theorem lockUser_eq_some {pc : UserPc} (h : s.lockUser i pc = some s') :
    s.monitor = none ∧ s' = { s.atUser i pc with monitor := some (.user i) } := by
  unfold FutureImpl.lockUser at h
  split at h
  next hfree => exact ⟨hfree, (Option.some.inj h).symm⟩
  next => exact absurd h (by simp)

theorem callStep_move {call : Call} (h : callStep s i call = some s') :
    UserMove s i s' (events s (.call i call)) := by
  unfold callStep at h
  split at h
  next huser =>
    cases call with
    | ready => cases h; exact .ready huser
    | isCancelled => cases h; exact .isCancelled huser
    | cancel => cases h; exact .cancel huser
    | wait call => cases h; exact .wait huser call
  next => exact absurd h (by simp)

theorem userStep_move (h : userStep s i = some s') : UserMove s i s' (userEvents s i) := by
  unfold userStep at h
  unfold userEvents
  split at h
  next => exact absurd h (by simp)
  next call huser =>
    rw [huser]
    obtain ⟨hfree, rfl⟩ := lockUser_eq_some h
    exact .lock (.inl huser) hfree
  next call huser =>
    rw [huser]
    split at h
    next hready => cases h; exact .met huser hready
    next hready => cases h; exact .block huser (Bool.eq_false_iff.mpr hready)
  next call huser =>
    rw [huser]
    obtain ⟨hfree, rfl⟩ := lockUser_eq_some h
    exact .lock (.inr huser) hfree
  next => exact absurd h (by simp)
  next huser =>
    rw [huser]
    obtain ⟨hfree, rfl⟩ := lockUser_eq_some h
    exact .giveUp huser hfree
  next call ready huser =>
    rw [huser]
    cases h
    cases call with
    | wait => exact .waited huser
    | timedWait => exact .timedWaited huser
    | get => exact .get huser
  next huser => rw [huser]; cases h; exact .got huser
  next huser =>
    rw [huser]
    split at h
    next hready => cases h; exact .cancelReady huser hready
    next hready => cases h; exact .cancelNotReady huser (Bool.eq_false_iff.mpr hready)
  next huser =>
    rw [huser]
    show UserMove s i s' (if s.executing then [] else [.cancel i false])
    split at h
    next hexecuting => cases h; rw [if_pos hexecuting]; exact .cancelExecuting huser hexecuting
    next hexecuting =>
      cases h
      rw [if_neg hexecuting]
      exact .cancelTooLate huser (Bool.eq_false_iff.mpr hexecuting)
  next huser => rw [huser]; cases h; exact .cancelled huser

/-- Everything one step can do. -/
theorem step_cases {a : Act ρ ι} (h : step hasFunction s a = some s') :
    TaskMove hasFunction s s' (events s a) ∨ (∃ i, UserMove s i s' (events s a)) ∨
      ∃ i, s' = s.atUser i (s.user i).notified ∧ events s a = [] := by
  cases a with
  | task => exact .inl (taskStep_move h)
  | returns r =>
    simp only [step, functionStep] at h
    split at h
    next htask => cases h; exact .inl (.returned htask r)
    next => exact absurd h (by simp)
  | throws =>
    simp only [step, functionStep] at h
    split at h
    next htask => cases h; exact .inl (.threw htask)
    next => exact absurd h (by simp)
  | drop =>
    simp only [step, dropStep] at h
    split at h
    next htask => cases h; exact .inl (.dropped htask)
    next => exact absurd h (by simp)
  | call i call => exact .inr (.inl ⟨i, callStep_move h⟩)
  | user i => exact .inr (.inl ⟨i, userStep_move h⟩)
  | timeout i =>
    simp only [step, timeoutStep] at h
    split at h
    next notified huser => cases h; exact .inr (.inl ⟨i, .timeout huser⟩)
    next => exact absurd h (by simp)
  | spurious i => exact .inr (.inr ⟨i, (Option.some.inj h).symm, rfl⟩)

end Satf.Future
