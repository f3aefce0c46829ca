import Satf.Pool.History
import Satf.ThreadPool.Shutdown

/-!
# The program's pool, as an instance

`Satf.Pool` is `threadpool::pool` as the program uses it: a FIFO scheduler, one
owner, no resizing, tasks that return. Here it is shown to be a part of the
pool of this chapter.

> `pool_refines`: every run of it is, call for call and task for task, a run of
> the pool with a FIFO scheduler and one caller, which calls `resize(n)` and
> `schedule`, and at the end `wait_for_all_tasks::shutdown`.

So what holds of every run here holds there. A state of the one is a view of a
state of the other: its workers are those that have been created.
-/

namespace Satf.ThreadPool

open Satf.Lib

variable {κ τ : Type} {n : Nat} {client : Pool.Client κ τ} {s s' : Pool.PoolCore κ τ n}

/-! ## The view -/

/-- Where a worker is that has been created. -/
def workerView : Pool.WorkerPc τ → Option (WorkerPc τ)
  | .absent => none
  | .fetch => some .fetch
  | .firstTest => some .firstTest
  | .loopTest => some .loopTest
  | .blocked notified => some (.blocked notified)
  | .running task => some (.running task)
  | .destruct => some .destruct
  | .destructing => some .destructing
  | .exiting => some .exiting
  | .finished => some .finished

/-- Where the owner is in its calls. -/
def mainView : Pool.MainPc κ τ n → CallerPc τ
  | .construct => .resize n
  | .resizeStart => .resizeStart n
  | .resizing => .resizing
  | .client _ | .returned => .idle
  | .schedule task _ => .schedule task
  | .scheduling task _ => .scheduling task
  | .wait => .wait false 0
  | .waitTest => .waitTest false 0
  | .waitBlocked notified => .waitBlocked false 0 notified
  | .terminate => .terminate true
  | .terminating => .terminating true
  | .terminateTest => .terminateTest
  | .terminateBlocked notified => .terminateBlocked notified
  | .joining workers => .joining (workers.map Fin.val)

def holderView : Pool.Holder n → Holder Unit
  | .main => .caller ()
  | .worker w => .worker w

/-- `ws` are the workers that have been created, in order. -/
def Created (worker : Fin n → Pool.WorkerPc τ) (ws : List (WorkerPc τ)) : Prop :=
  ∀ w : Nat, ws[w]? = if h : w < n then workerView (worker ⟨w, h⟩) else none

/-- The pool's state, when `ws` are its workers. -/
def poolView (s : Pool.PoolCore κ τ n) (ws : List (WorkerPc τ)) : PoolState (List τ) τ Unit where
  workerCount := s.workerCount
  targetWorkerCount := s.targetWorkerCount
  activeWorkerCount := s.activeWorkerCount
  terminateAllWorkers := s.terminateAllWorkers
  scheduler := s.scheduler
  terminatedWorkers := s.terminatedWorkers.map Fin.val
  monitor := s.monitor.map holderView
  workers := ws
  caller := fun _ => mainView s.main

def View (s : Pool.PoolCore κ τ n) (t : PoolState (List τ) τ Unit) : Prop :=
  ∃ ws, Created s.worker ws ∧ t = poolView s ws

section
variable {worker : Fin n → Pool.WorkerPc τ} {ws : List (WorkerPc τ)} {w : Fin n}
  {pc : WorkerPc τ} {pc' : Pool.WorkerPc τ}

theorem Created.get (h : Created worker ws) (w : Fin n) :
    ws[w.val]? = workerView (worker w) := by
  rw [h w.val, dif_pos w.isLt]

/-- A worker moves. -/
theorem Created.set (h : Created worker ws) {pcw : WorkerPc τ}
    (hw : workerView (worker w) = some pcw) (hpc : workerView pc' = some pc) :
    Created (Function.update worker w pc') (ws.set w pc) := by
  have hlt : w.val < ws.length := (List.getElem?_eq_some_iff.mp ((h.get w).trans hw)).1
  intro v
  rw [List.getElem?_set]
  by_cases hvw : w.val = v
  · subst hvw
    rw [if_pos rfl, if_pos hlt, dif_pos w.isLt, Function.update_self, hpc]
  · rw [if_neg hvw, h v]
    split
    next hv => rw [Function.update_of_ne fun heq => hvw (congrArg Fin.val heq).symm]
    next => rfl

theorem workerView_notified (pc : Pool.WorkerPc τ) :
    workerView pc.notified = (workerView pc).map WorkerPc.notified := by
  cases pc <;> rfl

theorem workerView_asleep (h : workerView pc' = some pc) : pc.asleep = pc'.asleep := by
  cases pc' with
  | absent => cases h
  | blocked notified => cases h; cases notified <;> rfl
  | _ => cases h; rfl

theorem workerView_ended (h : workerView pc' = some pc) : pc.ended = pc'.ended := by
  cases pc' with
  | absent => cases h
  | _ => cases h; rfl

/-- All workers are notified. -/
theorem Created.notified (h : Created worker ws) :
    Created (fun w => (worker w).notified) (ws.map WorkerPc.notified) := by
  intro v
  rw [List.getElem?_map, h v]
  split
  next => exact (workerView_notified _).symm
  next => rfl

/-- The next worker is created. -/
theorem Created.create (h : Created worker ws) {count : Nat} (hlt : count < n)
    (hfresh : ∀ v : Fin n, worker v = if v.val < count then .fetch else .absent) :
    Created (Function.update worker ⟨count, hlt⟩ .fetch) (ws ++ [.fetch]) := by
  have hlength : ws.length = count := by
    refine Nat.le_antisymm (Nat.le_of_not_lt fun hmore => ?_) (Nat.le_of_not_lt fun hless => ?_)
    · have hget := (h.get ⟨count, hlt⟩).symm.trans (List.getElem?_eq_getElem hmore)
      rw [hfresh, if_neg (Nat.lt_irrefl _)] at hget
      cases hget
    · have hget := h.get ⟨ws.length, Nat.lt_trans hless hlt⟩
      rw [hfresh, if_pos hless, List.getElem?_eq_none (Nat.le_refl _)] at hget
      cases hget
  intro v
  rw [List.getElem?_append, hlength]
  split
  next hv =>
    rw [h v]
    split
    next => rw [Function.update_of_ne fun heq => Nat.ne_of_lt hv (congrArg Fin.val heq)]
    next => rfl
  next hv =>
    rw [List.getElem?_singleton]
    split
    next hzero =>
      have heq : v = count := by omega
      subst heq
      rw [dif_pos hlt, Function.update_self]
      rfl
    next hnot =>
      split
      next hvn =>
        have hne : (⟨v, hvn⟩ : Fin n) ≠ ⟨count, hlt⟩ := fun heq => by
          have := congrArg Fin.val heq
          exact hnot (by simp only at this; omega)
        rw [Function.update_of_ne hne, hfresh, if_neg hv]
        rfl
      next => rfl

end

/-! ## What is seen -/

/-- What is seen of a pool from outside. -/
inductive Visible (τ : Type) where
  | call (call : Call τ)
  | event (event : Event τ)

def Act.calls {ι : Type} : Act τ ι → List (Call τ)
  | .call _ c => [c]
  | _ => []

/-- The calls in a history. -/
def callsOf (h : List (Visible τ)) : List (Call τ) :=
  h.filterMap fun
    | .call call => some call
    | .event _ => none

def visible {σ ι : Type} [DecidableEq ι] (policy : SchedulingPolicy σ τ) (s : PoolState σ τ ι)
    (a : Act τ ι) : List (Visible τ) :=
  a.calls.map .call ++ (events policy s a).map .event

def eventView : Pool.Event τ n → Event τ
  | .scheduled task => .scheduled task
  | .started w task => .started w task
  | .finished w task => .finished w task

/-- The call that the owner begins with its next step. The first one, `resize`,
it has begun already. -/
def mainCalls (client : Pool.Client κ τ) (s : Pool.PoolCore κ τ n) : List (Call τ) :=
  match s.main with
  | .client k =>
    match client.next k with
    | .compute _ => []
    | .schedule task _ => [.schedule task]
    | .finished => [.wait 0]
  | .waitTest =>
    if s.activeWorkerCount ≠ 0 ∨ s.scheduler.isEmpty = false then []
    else [.terminateAllWorkers true]
  | _ => []

/-- The call that begins with a step of the program's pool. -/
def ownerCalls (client : Pool.Client κ τ) (s : Pool.PoolCore κ τ n) :
    Pool.Act n → List (Call τ)
  | .main _ => mainCalls client s
  | _ => []

/-- What is seen of the program's pool. -/
def ownerVisible (client : Pool.Client κ τ) (s : Pool.PoolCore κ τ n) (a : Pool.Act n) :
    List (Visible τ) :=
  (ownerCalls client s a).map .call ++ (Pool.events s a).map fun e => .event (eventView e)

/-! ## Every step is matched -/

/-- Some steps lead from the view of `s` to that of `s'`, and show what step `a`
shows. -/
def Matched (client : Pool.Client κ τ) (s : Pool.PoolCore κ τ n) (a : Pool.Act n)
    (s' : Pool.PoolCore κ τ n) (t : PoolState (List τ) τ Unit) : Prop :=
  ∃ bs t', run (step fifoScheduler) t bs = some t' ∧ View s' t' ∧
    history (step fifoScheduler) (visible fifoScheduler) t bs = ownerVisible client s a

section
variable {t t' : PoolState (List τ) τ Unit} {a : Pool.Act n} {ws : List (WorkerPc τ)} {w : Fin n}

/-- One step is enough. -/
theorem Matched.one (b : Act τ Unit) {ws' : List (WorkerPc τ)} (hws' : Created s'.worker ws')
    (hstep : step fifoScheduler t b = some (poolView s' ws'))
    (hvisible : visible fifoScheduler t b = ownerVisible client s a) : Matched client s a s' t := by
  refine ⟨[b], _, by simp only [run, hstep, Option.bind_some], ⟨ws', hws', rfl⟩, ?_⟩
  rw [history_cons _ _ hstep, hvisible, history, List.append_nil]

@[simp] theorem update_unit {α : Type} (f : Unit → α) (x : α) :
    Function.update f () x = fun _ => x := by
  funext u
  exact Function.update_self _ _ _

@[simp] theorem mainView_notified (pc : Pool.MainPc κ τ n) :
    mainView pc.notified = (mainView pc).notified := by
  cases pc <;> rfl

/-- A worker's step shows the same in both. -/
theorem visible_worker (hws : Created s.worker ws) :
    visible fifoScheduler (poolView s ws) (.worker w true) = ownerVisible client s (.worker w) := by
  have hget : (poolView s ws).workers[w.val]? = workerView (s.worker w) := hws.get w
  have hevents : workerEvents fifoScheduler (poolView s ws) w
      = (Pool.events s (.worker w)).map eventView := by
    unfold workerEvents
    rw [hget]
    cases hw : s.worker w with
    | loopTest =>
      cases hscheduler : s.scheduler <;>
        simp [workerView, poolView, fifoScheduler, Pool.events, Pool.PoolCore.taken, hw, hscheduler,
          Pool.WorkerPc.tasks, eventView]
    | _ => simp [workerView, Pool.events, Pool.PoolCore.taken, hw, Pool.WorkerPc.tasks, eventView]
  show [] ++ (workerEvents fifoScheduler (poolView s ws) w).map Visible.event = _
  rw [hevents, List.map_map]
  rfl

theorem workerStep_matched (hws : Created s.worker ws) (h : Pool.workerStep s w = some s') :
    Matched client s (.worker w) s' (poolView s ws) := by
  have hget := hws.get w
  -- the worker goes from one place to another
  have hmove : ∀ {pcw : Pool.WorkerPc τ} (pc pc' : WorkerPc τ),
      workerView (s.worker w) = some pc → workerView pcw = some pc' →
      s'.worker = Function.update s.worker w pcw →
      step fifoScheduler (poolView s ws) (.worker w true) = some (poolView s' (ws.set w pc')) →
      Matched client s (.worker w) s' (poolView s ws) := by
    intro pcw pc pc' hpc hpc' hworker hstep
    exact .one (.worker w true) (hworker ▸ hws.set hpc hpc') hstep (visible_worker hws)
  unfold Pool.workerStep at h
  cases hw : s.worker w with
  | absent => rw [hw] at h; cases h
  | fetch =>
    rw [hw] at h hget
    obtain ⟨hfree, rfl⟩ := Pool.lockWorker_eq_some h
    refine hmove .fetch .firstTest (by rw [hw]; rfl) rfl rfl ?_
    simp [step, workerStep, poolView, hget, workerView, PoolState.lockWorker, hfree,
      PoolState.atWorker, Pool.PoolCore.atWorker, holderView]
  | firstTest =>
    rw [hw] at h hget
    simp only at h
    split at h
    next hmany =>
      cases h
      refine hmove .firstTest .destruct (by rw [hw]; rfl) rfl rfl ?_
      simp [step, workerStep, poolView, hget, workerView, hmany, PoolState.unlockWorker,
        PoolState.atWorker, Pool.PoolCore.atWorker]
    next hfew =>
      cases h
      refine hmove .firstTest .loopTest (by rw [hw]; rfl) rfl rfl ?_
      simp [step, workerStep, poolView, hget, workerView, hfew,
        PoolState.atWorker, Pool.PoolCore.atWorker]
  | loopTest =>
    rw [hw] at h hget
    simp only at h
    split at h
    next hempty =>
      split at h
      next hmany =>
        cases h
        refine hmove .loopTest .destruct (by rw [hw]; rfl) rfl rfl ?_
        simp [step, workerStep, poolView, hget, workerView, hmany, PoolState.unlockWorker,
          PoolState.atWorker, Pool.PoolCore.atWorker, fifoScheduler, hempty]
      next hfew =>
        cases h
        refine hmove .loopTest (.blocked false) (by rw [hw]; rfl) rfl rfl ?_
        simp [step, workerStep, poolView, hget, workerView, hfew, PoolState.unlockWorker,
          PoolState.notifyAllIdle,
          PoolState.atWorker, Pool.PoolCore.atWorker, fifoScheduler, hempty]
    next task rest htask =>
      cases h
      refine hmove .loopTest (.running task) (by rw [hw]; rfl) rfl rfl ?_
      simp [step, workerStep, poolView, hget, workerView, PoolState.unlockWorker,
        PoolState.atWorker, Pool.PoolCore.atWorker, fifoScheduler, htask]
  | blocked notified =>
    rw [hw] at h hget
    cases notified with
    | false => cases h
    | true =>
      obtain ⟨t, ht, rfl⟩ := Option.map_eq_some_iff.mp h
      obtain ⟨hfree, rfl⟩ := Pool.lockWorker_eq_some ht
      refine hmove (.blocked true) .loopTest (by rw [hw]; rfl) rfl rfl ?_
      simp [step, workerStep, poolView, hget, workerView, PoolState.lockWorker, hfree,
        PoolState.atWorker, Pool.PoolCore.atWorker, holderView]
  | running task =>
    rw [hw] at h hget
    cases h
    refine hmove (.running task) .fetch (by rw [hw]; rfl) rfl rfl ?_
    simp [step, workerStep, poolView, hget, workerView, PoolState.atWorker, Pool.PoolCore.atWorker]
  | destruct =>
    rw [hw] at h hget
    obtain ⟨hfree, rfl⟩ := Pool.lockWorker_eq_some h
    refine hmove .destruct .destructing (by rw [hw]; rfl) rfl rfl ?_
    simp [step, workerStep, poolView, hget, workerView, PoolState.lockWorker, hfree,
      PoolState.atWorker, Pool.PoolCore.atWorker, holderView]
  | destructing =>
    rw [hw] at h hget
    cases h
    refine hmove .destructing .exiting (by rw [hw]; rfl) rfl rfl ?_
    cases hflag : s.terminateAllWorkers <;>
      simp [step, workerStep, poolView, hget, workerView, PoolState.discount,
        PoolState.notifyAllIdle, PoolState.unlockWorker, PoolState.atWorker,
        Pool.PoolCore.atWorker, hflag]
  | exiting =>
    rw [hw] at h hget
    cases h
    refine hmove .exiting .finished (by rw [hw]; rfl) rfl rfl ?_
    simp [step, workerStep, poolView, hget, workerView, PoolState.atWorker, Pool.PoolCore.atWorker]
  | finished => rw [hw] at h; cases h

/-- So does a step of the owner with which it does not begin a call. -/
theorem visible_caller (ws : List (WorkerPc τ)) (chosen : Option (Fin n)) (c : Option Nat)
    (hcalls : mainCalls client s = []) :
    visible fifoScheduler (poolView s ws) (.caller () c true)
      = ownerVisible client s (.main chosen) := by
  have hevents : callerEvents fifoScheduler (poolView s ws) ()
      = (Pool.events s (.main chosen)).map eventView := by
    cases hmain : s.main <;>
      simp [callerEvents, poolView, hmain, mainView, fifoScheduler, Pool.events, Pool.MainPc.pushed,
        eventView]
  show [] ++ (callerEvents fifoScheduler (poolView s ws) ()).map Visible.event
    = (mainCalls client s).map Visible.call ++ _
  rw [hevents, hcalls, List.map_map]
  rfl

theorem mainCalls_of_lock {pc : Pool.MainPc κ τ n} (h : s.main.afterLock = some pc) :
    mainCalls client s = [] := by
  unfold mainCalls
  cases hmain : s.main with
  | client | waitTest => rw [hmain] at h; cases h
  | _ => rfl

/-- A step with which the owner takes the monitor. -/
theorem lockStep_matched {chosen : Option (Fin n)} {pc : Pool.MainPc κ τ n}
    (hws : Created s.worker ws) (hlock : s.main.afterLock = some pc) (h : s.lockMain pc = some s') :
    Matched client s (.main chosen) s' (poolView s ws) := by
  obtain ⟨hfree, rfl⟩ := Pool.lockMain_eq_some h
  refine .one (.caller () none true) hws ?_ (visible_caller _ _ _ (mainCalls_of_lock hlock))
  have hstep : callerStep fifoScheduler (poolView s ws) () none true
      = (poolView s ws).lockCaller () (mainView pc) := by
    cases hmain : s.main with
    | waitBlocked notified | terminateBlocked notified =>
      rw [hmain] at hlock
      cases notified <;> cases hlock
      simp only [callerStep, poolView, hmain, mainView]
    | construct | schedule | wait | terminate =>
      rw [hmain] at hlock
      cases hlock
      simp only [callerStep, poolView, hmain, mainView]
    | _ => rw [hmain] at hlock; cases hlock
  rw [step, hstep]
  simp [PoolState.lockCaller, poolView, hfree, PoolState.atCaller, holderView]

theorem resizeStep_matched {chosen : Option (Fin n)} (hws : Created s.worker ws)
    (hmain : s.main = .resizeStart) (h : Pool.resizeStep client s = some s') :
    Matched client s (.main chosen) s' (poolView s ws) := by
  have hvisible := visible_caller ws chosen none
    (show mainCalls client s = [] by rw [mainCalls, hmain])
  unfold Pool.resizeStep at h
  split at h
  next hflag =>
    cases h
    refine .one (.caller () none true) hws ?_ hvisible
    simp [step, callerStep, poolView, hmain, mainView, hflag, PoolState.unlockCaller,
      PoolState.atCaller]
  next hflag =>
    split at h
    next hle =>
      cases h
      refine .one (.caller () none true) hws ?_ hvisible
      simp [step, callerStep, poolView, hmain, mainView, hflag, hle, PoolState.atCaller]
    next hgt =>
      cases h
      refine .one (.caller () none true) hws.notified ?_ hvisible
      simp [step, callerStep, poolView, hmain, mainView, hflag, hgt, PoolState.unlockCaller,
        PoolState.atCaller, PoolState.notifyAllTasks, Pool.PoolCore.notifyAllTasks]

theorem createStep_matched {chosen : Option (Fin n)} (hgrow : Pool.GrowInv s)
    (hws : Created s.worker ws) (hmain : s.main = .resizing)
    (h : Pool.createStep client s = some s') :
    Matched client s (.main chosen) s' (poolView s ws) := by
  have hvisible := visible_caller ws chosen none
    (show mainCalls client s = [] by rw [mainCalls, hmain])
  unfold Pool.createStep at h
  split at h
  next hmore =>
    split at h
    next hlt =>
      cases h
      obtain ⟨-, -, -, hfresh⟩ := hgrow.fresh (by rw [hmain]; rfl)
      refine .one (.caller () none true) (hws.create hlt hfresh) ?_ hvisible
      simp [step, callerStep, poolView, hmain, mainView, hmore, PoolState.create,
        Pool.PoolCore.atWorker]
    next => cases h
  next hall =>
    cases h
    refine .one (.caller () none true) hws ?_ hvisible
    simp [step, callerStep, poolView, hmain, mainView, hall, PoolState.unlockCaller,
      PoolState.atCaller]

theorem scheduleStep_matched {chosen : Option (Fin n)} {task : τ} {k : κ}
    (hws : Created s.worker ws) (hmain : s.main = .scheduling task k)
    (h : Pool.scheduleStep s task k chosen = some s') :
    Matched client s (.main chosen) s' (poolView s ws) := by
  have hcalls : mainCalls client s = [] := by rw [mainCalls, hmain]
  unfold Pool.scheduleStep at h
  split at h
  next w =>
    split at h
    next hasleep =>
      cases h
      have hw := Pool.asleep_eq hasleep
      have hget := hws.get w
      rw [hw] at hget
      have hset : Created (Function.update s.worker w (.blocked true)) (ws.set w (.blocked true)) :=
        hws.set (by rw [hw]; rfl) rfl
      refine .one (.caller () (some w.val) true)
        hset ?_
        (visible_caller _ _ _ hcalls)
      simp [step, callerStep, scheduleStep, poolView, hmain, mainView, fifoScheduler, hget,
        workerView, WorkerPc.asleep, PoolState.unlockCaller, PoolState.atCaller, PoolState.atWorker,
        Pool.PoolCore.atWorker]
    next => cases h
  next =>
    split at h
    next hawake =>
      cases h
      have hnone : ws.any WorkerPc.asleep = false := by
        refine List.any_eq_false.mpr fun pc hpc => ?_
        obtain ⟨v, hv⟩ := List.getElem?_of_mem hpc
        rw [hws v] at hv
        split at hv
        next => rw [workerView_asleep hv, hawake]; simp
        next => cases hv
      refine .one (.caller () none true) hws ?_ (visible_caller _ _ _ hcalls)
      simp [step, callerStep, scheduleStep, poolView, hmain, mainView, fifoScheduler, hnone,
        PoolState.unlockCaller, PoolState.atCaller]
    next => cases h

/-- The owner's own program only calls. -/
theorem clientStep_matched {chosen : Option (Fin n)} {k : κ} (hws : Created s.worker ws)
    (hmain : s.main = .client k)
    (h : (match client.next k with
      | .compute k => some { s with main := .client k }
      | .schedule task k => some { s with main := .schedule task k }
      | .finished => some { s with main := .wait }) = some s') :
    Matched client s (.main chosen) s' (poolView s ws) := by
  have hevents : Pool.events s (.main chosen) = [] := by
    simp [Pool.events, hmain, Pool.MainPc.pushed]
  cases hnext : client.next k with
  | compute k' =>
    rw [hnext] at h
    cases h
    refine ⟨[], poolView s ws, rfl, ⟨ws, hws, by simp [poolView, hmain, mainView]⟩, ?_⟩
    simp [history, ownerVisible, ownerCalls, mainCalls, hmain, hnext, hevents]
  | schedule task k' =>
    rw [hnext] at h
    cases h
    refine .one (.call () (.schedule task)) hws ?_ ?_
    · simp [step, callStep, poolView, hmain, mainView, PoolState.atCaller, Call.start]
    · simp [visible, Act.calls, events, ownerVisible, ownerCalls, mainCalls, hmain, hnext, hevents]
  | finished =>
    rw [hnext] at h
    cases h
    refine .one (.call () (.wait 0)) hws ?_ ?_
    · simp [step, callStep, poolView, hmain, mainView, PoolState.atCaller, Call.start]
    · simp [visible, Act.calls, events, ownerVisible, ownerCalls, mainCalls, hmain, hnext, hevents]

/-- Where `wait` returns, `terminate_all_workers` is called. -/
theorem waitStep_matched {chosen : Option (Fin n)} (hws : Created s.worker ws)
    (hmain : s.main = .waitTest)
    (h : (if s.activeWorkerCount ≠ 0 ∨ s.scheduler.isEmpty = false then
        some { s with monitor := none, main := .waitBlocked false }
      else some { s with monitor := none, main := .terminate }) = some s') :
    Matched client s (.main chosen) s' (poolView s ws) := by
  have hevents : Pool.events s (.main chosen) = [] := by
    simp [Pool.events, hmain, Pool.MainPc.pushed]
  have hcaller : (poolView s ws).caller () = .waitTest false 0 := by
    simp [poolView, hmain, mainView]
  split at h
  next hbusy =>
    cases h
    have hview : (poolView s ws).busy fifoScheduler 0 = true := by
      simpa [PoolState.busy, poolView, fifoScheduler] using hbusy
    refine .one (.caller () none true) hws ?_
      (visible_caller _ _ _ (by rw [mainCalls, hmain]; exact if_pos hbusy))
    simp only [step, callerStep, hcaller, hview, if_true]
    simp [poolView, PoolState.unlockCaller, PoolState.atCaller, mainView]
  next hidle =>
    cases h
    have hview : (poolView s ws).busy fifoScheduler 0 = false := by
      obtain ⟨hactive, hempty⟩ := not_or.mp hidle
      have hnil : s.scheduler = [] := by simpa using hempty
      simp [PoolState.busy, poolView, fifoScheduler, hnil, not_not.mp hactive]
    have hreturn : step fifoScheduler (poolView s ws) (.caller () none true)
        = some ((poolView s ws).unlockCaller () .idle) := by
      simp only [step, callerStep, hcaller, hview]
      rfl
    have hcall : step fifoScheduler ((poolView s ws).unlockCaller () .idle)
        (.call () (.terminateAllWorkers true))
        = some (poolView
            ({ s with monitor := none, main := .terminate } : Pool.PoolCore κ τ n) ws) := by
      simp [step, callStep, PoolState.unlockCaller, PoolState.atCaller, poolView, Call.start,
        mainView]
    refine ⟨[.caller () none true, .call () (.terminateAllWorkers true)], _, ?_,
      ⟨ws, hws, rfl⟩, ?_⟩
    · simp only [run, hreturn, hcall, Option.bind_some]
    · rw [history_cons _ _ hreturn, history_cons _ _ hcall]
      have hcalls : mainCalls client s = [.terminateAllWorkers true] := by
        rw [mainCalls, hmain]
        exact if_neg hidle
      simp [history, visible, Act.calls, events, callerEvents, hcaller, ownerVisible, ownerCalls,
        hcalls, hevents]

theorem mainStep_matched {chosen : Option (Fin n)} (hgrow : Pool.GrowInv s)
    (hws : Created s.worker ws) (h : Pool.mainStep client s chosen = some s') :
    Matched client s (.main chosen) s' (poolView s ws) := by
  unfold Pool.mainStep at h
  cases hmain : s.main with
  | construct =>
    rw [hmain] at h
    exact lockStep_matched hws (by rw [hmain]; rfl) h
  | resizeStart => rw [hmain] at h; exact resizeStep_matched hws hmain h
  | resizing => rw [hmain] at h; exact createStep_matched hgrow hws hmain h
  | client k => rw [hmain] at h; exact clientStep_matched hws hmain h
  | schedule task k =>
    rw [hmain] at h
    exact lockStep_matched hws (by rw [hmain]; rfl) h
  | scheduling task k => rw [hmain] at h; exact scheduleStep_matched hws hmain h
  | wait =>
    rw [hmain] at h
    exact lockStep_matched hws (by rw [hmain]; rfl) h
  | waitTest => rw [hmain] at h; exact waitStep_matched hws hmain h
  | waitBlocked notified =>
    rw [hmain] at h
    cases notified with
    | false => cases h
    | true =>
      exact lockStep_matched hws (by rw [hmain]; rfl) h
  | terminate =>
    rw [hmain] at h
    exact lockStep_matched hws (by rw [hmain]; rfl) h
  | terminating =>
    rw [hmain] at h
    cases h
    refine .one (.caller () none true) hws.notified ?_
      (visible_caller _ _ _ (by rw [mainCalls, hmain]))
    simp [step, callerStep, poolView, hmain, mainView, PoolState.atCaller, PoolState.notifyAllTasks,
      Pool.PoolCore.notifyAllTasks]
  | terminateTest =>
    rw [hmain] at h
    have hvisible := visible_caller ws chosen none
      (show mainCalls client s = [] by rw [mainCalls, hmain])
    simp only at h
    split at h
    next hbusy =>
      cases h
      refine .one (.caller () none true) hws ?_ hvisible
      simp [step, callerStep, poolView, hmain, mainView, hbusy, PoolState.unlockCaller,
        PoolState.atCaller]
    next hidle =>
      cases h
      refine .one (.caller () none true) hws ?_ hvisible
      simp [step, callerStep, poolView, hmain, mainView, hidle, PoolState.atCaller]
  | terminateBlocked notified =>
    rw [hmain] at h
    cases notified with
    | false => cases h
    | true =>
      exact lockStep_matched hws (by rw [hmain]; rfl) h
  | joining workers =>
    rw [hmain] at h
    have hvisible := visible_caller ws chosen none
      (show mainCalls client s = [] by rw [mainCalls, hmain])
    cases workers with
    | nil =>
      cases h
      refine .one (.caller () none true) hws ?_ hvisible
      simp [step, callerStep, poolView, hmain, mainView, PoolState.unlockCaller, PoolState.atCaller]
    | cons w workers =>
      simp only at h
      split at h
      next hended =>
        cases h
        have hall : ws[w.val]?.all WorkerPc.ended = true := by
          rw [hws.get w]
          cases hw : workerView (s.worker w) with
          | none => rfl
          | some pc => rw [Option.all_some, workerView_ended hw, hended]
        refine .one (.caller () none true) hws ?_ hvisible
        simp [step, callerStep, poolView, hmain, mainView, hall, PoolState.atCaller]
      next => cases h
  | returned => rw [hmain] at h; cases h

theorem step_matched (hgrow : Pool.GrowInv s) (hview : View s t)
    (h : Pool.step client s a = some s') : Matched client s a s' t := by
  obtain ⟨ws, hws, rfl⟩ := hview
  cases a with
  | main chosen => exact mainStep_matched hgrow hws h
  | worker w => exact workerStep_matched hws h
  | spuriousMain =>
    cases h
    refine .one (.spuriousCaller ()) hws ?_ rfl
    simp [step, poolView, PoolState.atCaller]
  | spuriousWorker w =>
    cases h
    cases hw : workerView (s.worker w) with
    | none =>
      -- a worker that has not been created does not wake up
      have hsame : (s.worker w).notified = s.worker w := by
        cases hpc : s.worker w with
        | absent => rfl
        | _ => rw [hpc] at hw; cases hw
      refine ⟨[], poolView s ws, rfl, ⟨ws, ?_, rfl⟩, rfl⟩
      show Created (Function.update s.worker w (s.worker w).notified) ws
      rw [hsame, Function.update_eq_self]
      exact hws
    | some pc =>
      have hget := (hws.get w).trans hw
      refine .one (.spuriousWorker w) (hws.set hw (by rw [workerView_notified, hw]; rfl)) ?_ rfl
      simp [step, poolView, hget, PoolState.atWorker, Pool.PoolCore.atWorker]

end

/-! ## Every run is matched -/

/-- The calls that the owner has still to make, when it is at this place. -/
def Owes (client : Pool.Client κ τ) : Pool.MainPc κ τ n → List (Call τ) → Prop
  | .construct, cs | .resizeStart, cs | .resizing, cs =>
    ∃ ts, client.Schedules client.start ts ∧ cs = ts.map .schedule ++ waitForAllTasks
  | .client k, cs | .schedule _ k, cs | .scheduling _ k, cs =>
    ∃ ts, client.Schedules k ts ∧ cs = ts.map .schedule ++ waitForAllTasks
  | .wait, cs | .waitTest, cs | .waitBlocked _, cs => cs = [.terminateAllWorkers true]
  | _, cs => cs = []

theorem owes_notified (pc : Pool.MainPc κ τ n) (cs : List (Call τ)) :
    Owes client pc.notified cs = Owes client pc cs := by
  cases pc <;> rfl

theorem owes_afterLock {pc pc' : Pool.MainPc κ τ n} {cs : List (Call τ)}
    (h : pc.afterLock = some pc') (howes : Owes client pc cs) : Owes client pc' cs := by
  cases pc with
  | waitBlocked notified | terminateBlocked notified => cases notified <;> cases h; exact howes
  | construct | schedule | wait | terminate => cases h; exact howes
  | _ => cases h

theorem mainStep_owes {chosen : Option (Fin n)} {cs : List (Call τ)}
    (howes : Owes client s.main cs) (h : Pool.mainStep client s chosen = some s') :
    ∃ cs', cs = mainCalls client s ++ cs' ∧ Owes client s'.main cs' := by
  -- a step with which no call begins
  have hsame : mainCalls client s = [] → Owes client s'.main cs →
      ∃ cs', cs = mainCalls client s ++ cs' ∧ Owes client s'.main cs' :=
    fun hcalls howes' => ⟨cs, by rw [hcalls]; rfl, howes'⟩
  by_cases hwait : s.main = .waitTest
  · simp only [Pool.mainStep, hwait] at h
    rw [hwait] at howes
    have hcalls : mainCalls client s = if s.activeWorkerCount ≠ 0 ∨ s.scheduler.isEmpty = false
        then [] else [.terminateAllWorkers true] := by rw [mainCalls, hwait]
    rw [hcalls]
    split at h
    next hbusy => cases h; rw [if_pos hbusy]; exact ⟨_, rfl, howes⟩
    next hidle => cases h; rw [if_neg hidle]; exact ⟨[], howes, rfl⟩
  · cases Pool.mainStep_move h with
    | lock hlock => exact hsame (mainCalls_of_lock hlock) (owes_afterLock hlock howes)
    | resizeRefused hmain | resizeUp hmain | resizeDown hmain | create hmain | created hmain
    | push hmain | pushNotify hmain | terminateAll hmain | terminateBlock hmain | startJoin hmain
    | join hmain | joined hmain =>
      rw [hmain] at howes
      exact hsame (by rw [mainCalls, hmain]) (by first | exact howes | exact hmain ▸ howes)
    | compute hmain hnext =>
      rw [hmain] at howes
      obtain ⟨ts, hts, rfl⟩ := howes
      refine hsame (by rw [mainCalls, hmain]; simp only [hnext]) ⟨ts, ?_, rfl⟩
      cases hts with
      | compute hnext' hrest => rw [hnext] at hnext'; cases hnext'; exact hrest
      | finished hnext' | schedule hnext' => rw [hnext] at hnext'; cases hnext'
    | @schedule k task k' hmain hnext =>
      rw [hmain] at howes
      obtain ⟨ts, hts, rfl⟩ := howes
      have hcalls : mainCalls client s = [.schedule task] := by
        rw [mainCalls, hmain]
        simp only [hnext]
      rw [hcalls]
      cases hts with
      | schedule hnext' hrest =>
        rw [hnext] at hnext'
        cases hnext'
        exact ⟨_, rfl, _, hrest, rfl⟩
      | finished hnext' | compute hnext' => rw [hnext] at hnext'; cases hnext'
    | finish hmain hnext =>
      rw [hmain] at howes
      obtain ⟨ts, hts, rfl⟩ := howes
      have hcalls : mainCalls client s = [.wait 0] := by
        rw [mainCalls, hmain]
        simp only [hnext]
      rw [hcalls]
      cases hts with
      | finished => exact ⟨_, rfl, rfl⟩
      | compute hnext' | schedule hnext' => rw [hnext] at hnext'; cases hnext'
    | waitBlock hmain | waited hmain => exact absurd hmain hwait

theorem step_owes {a : Pool.Act n} {cs : List (Call τ)} (howes : Owes client s.main cs)
    (h : Pool.step client s a = some s') :
    ∃ cs', cs = ownerCalls client s a ++ cs' ∧ Owes client s'.main cs' := by
  cases a with
  | main chosen => exact mainStep_owes howes h
  | worker w =>
    refine ⟨cs, rfl, ?_⟩
    cases Pool.workerStep_move h with
    | sleep | destructed => exact (owes_notified _ _).mpr howes
    | lock | wake | leave | stay | take | done | exit => exact howes
  | spuriousMain => cases h; exact ⟨cs, rfl, (owes_notified _ _).mpr howes⟩
  | spuriousWorker w => cases h; exact ⟨cs, rfl, howes⟩

theorem callsOf_append (h h' : List (Visible τ)) : callsOf (h ++ h') = callsOf h ++ callsOf h' :=
  List.filterMap_append

theorem callsOf_ownerVisible (s : Pool.PoolCore κ τ n) (a : Pool.Act n) :
    callsOf (ownerVisible client s a) = ownerCalls client s a := by
  simp [callsOf, ownerVisible, List.filterMap_append, List.filterMap_map]

/-- In a run, the calls made and those owed are those of the owner's program. -/
theorem run_owes {ts : List τ} (hprog : client.Schedules client.start ts) {as : List (Pool.Act n)}
    (hrun : run (Pool.step client) Pool.PoolCore.init as = some s) :
    ∃ cs, ts.map .schedule ++ waitForAllTasks
        = callsOf (history (Pool.step client) (ownerVisible client) Pool.PoolCore.init as) ++ cs ∧
      Owes client s.main cs := by
  refine @history_invariant _ _ _ (Pool.step client) (ownerVisible client) Pool.PoolCore.init
    (fun s h => ∃ cs, ts.map .schedule ++ waitForAllTasks = callsOf h ++ cs ∧
      Owes client s.main cs)
    ⟨_, rfl, ts, hprog, rfl⟩ ?_ as s hrun
  rintro s h a s' _ ⟨cs, hcs, howes⟩ hstep
  obtain ⟨cs', rfl, howes'⟩ := step_owes howes hstep
  exact ⟨cs', by rw [hcs, callsOf_append, callsOf_ownerVisible, List.append_assoc], howes'⟩

/-- A run up to the first call. -/
theorem resize_called :
    step fifoScheduler (PoolState.init fifoScheduler : PoolState (List τ) τ Unit)
        (.call () (.resize n))
      = some (poolView (Pool.PoolCore.init : Pool.PoolCore κ τ n) []) := by
  show some ((PoolState.init fifoScheduler : PoolState (List τ) τ Unit).atCaller () (.resize n)) = _
  rw [PoolState.atCaller, update_unit]
  rfl

/-- Every run of the program's pool is, call for call and task for task, a run
of the pool with a FIFO scheduler, whose one caller calls `resize(n)`,
`schedule` for the tasks, and `wait_for_all_tasks::shutdown`. -/
theorem pool_refines {ts : List τ} (hprog : client.Schedules client.start ts)
    {as : List (Pool.Act n)} (hrun : run (Pool.step client) Pool.PoolCore.init as = some s) :
    ∃ bs t, run (step fifoScheduler) (PoolState.init fifoScheduler) bs = some t ∧ View s t ∧
      history (step fifoScheduler) (visible fifoScheduler) (PoolState.init fifoScheduler) bs
        = .call (.resize n)
          :: history (Pool.step client) (ownerVisible client) Pool.PoolCore.init as ∧
      ∃ cs, callsOf (history (step fifoScheduler) (visible fifoScheduler)
            (PoolState.init fifoScheduler) bs) ++ cs
          = .resize n :: ts.map .schedule ++ waitForAllTasks ∧
        (s.main = .returned → cs = []) := by
  have hinit : View (Pool.PoolCore.init : Pool.PoolCore κ τ n)
      (poolView (Pool.PoolCore.init : Pool.PoolCore κ τ n) []) := by
    refine ⟨[], fun w => ?_, rfl⟩
    split <;> rfl
  obtain ⟨bs, t, hbs, hview, hhistory⟩ := simulation_history hinit
    (fun s a s' t hreach hview hstep =>
      step_matched (Pool.reachable_poolInv hreach).grow hview hstep) hrun
  obtain ⟨cs, hcs, howes⟩ := run_owes hprog hrun
  have hcalled := @resize_called κ τ n
  have hall : history (step fifoScheduler) (visible fifoScheduler) (PoolState.init fifoScheduler)
      (.call () (.resize n) :: bs) = .call (.resize n)
        :: history (Pool.step client) (ownerVisible client) Pool.PoolCore.init as := by
    rw [history_cons _ _ hcalled, hhistory]
    rfl
  refine ⟨.call () (.resize n) :: bs, t, ?_, hview, hall, cs, ?_, fun hreturned => ?_⟩
  · rw [run, hcalled]
    exact hbs
  · rw [hall, List.cons_append, hcs]
    rfl
  · rw [hreturned] at howes
    exact howes

/-- The theorem for a run to its end, of one worker and two tasks. -/
theorem pool_refines_two_tasks :
    ∃ bs t, run (step fifoScheduler) (PoolState.init fifoScheduler) bs = some t ∧
      (∃ s, run (Pool.step (Pool.listClient [7, 7])) Pool.PoolCore.init Pool.twoTasksRun
          = some s ∧ View s t) ∧
      callsOf (history (step fifoScheduler) (visible fifoScheduler)
          (PoolState.init fifoScheduler : PoolState (List Nat) Nat Unit) bs)
        = [.resize 1, .schedule 7, .schedule 7, .wait 0, .terminateAllWorkers true] := by
  have hrun : (run (Pool.step (Pool.listClient [7, 7])) Pool.PoolCore.init Pool.twoTasksRun).map
      (fun s => s.main) = some .returned := rfl
  obtain ⟨s, hs, hret⟩ := Option.map_eq_some_iff.mp hrun
  obtain ⟨bs, t, hbs, hview, -, cs, hcs, hnil⟩ :=
    pool_refines (Pool.listClient_schedules [7, 7] [7, 7]) hs
  refine ⟨bs, t, hbs, ⟨s, hs, hview⟩, ?_⟩
  rw [hnil hret, List.append_nil] at hcs
  exact hcs

end Satf.ThreadPool
