import Satf.Lib.Simulation
import Satf.Pool.Progress
import Mathlib.Algebra.BigOperators.Group.Finset.Piecewise

/-!
# What the pool does with its tasks

A run leaves a history: which tasks were scheduled, which worker started which
task and finished it. Every task is an element of the history of its own, so
the same task scheduled twice counts twice.

> `tasks_once_in_order`: at any moment, the tasks scheduled are the tasks
> started, in the same order, followed by the pending ones; and each worker
> has finished what it has started, but for the task it is running.
>
> `returned_all_run`: when the owner has returned, its tasks have been started
> in the order of its program and all of them finished.
-/

namespace Satf.Pool

open Satf.Lib

variable {κ τ : Type} {n : Nat} {client : Client κ τ} {s s' : PoolCore κ τ n} {w : Fin n}

/-! ## Events -/

/-- What an observer of the pool's tasks sees. -/
inductive Event (τ : Type) (n : Nat) where
  | scheduled (task : τ)
  | started (w : Fin n) (task : τ)
  | finished (w : Fin n) (task : τ)

/-- The task the owner is about to push. -/
def MainPc.pushed : MainPc κ τ n → List τ
  | .scheduling task _ => [task]
  | _ => []

/-- The task a worker is running. -/
def WorkerPc.tasks : WorkerPc τ → List τ
  | .running task => [task]
  | _ => []

/-- The task worker `w` is about to take. -/
def PoolCore.taken (s : PoolCore κ τ n) (w : Fin n) : List τ :=
  match s.worker w with
  | .loopTest => s.scheduler.take 1
  | _ => []

/-- What a step reports. A worker that runs a task finishes it with its next
step. -/
def events (s : PoolCore κ τ n) : Act n → List (Event τ n)
  | .main _ => s.main.pushed.map .scheduled
  | .worker w => (s.taken w).map (.started w) ++ (s.worker w).tasks.map (.finished w)
  | .spuriousMain | .spuriousWorker _ => []

/-- The history of a run of the pool. -/
def poolHistory (client : Client κ τ) (n : Nat) (as : List (Act n)) : List (Event τ n) :=
  history (step client) events PoolCore.init as

/-- The tasks scheduled, in order. -/
def scheduledOf (h : List (Event τ n)) : List τ :=
  h.filterMap fun
    | .scheduled task => some task
    | _ => none

/-- The tasks started, with the workers that started them, in order. -/
def starts (h : List (Event τ n)) : List (Fin n × τ) :=
  h.filterMap fun
    | .started w task => some (w, task)
    | _ => none

/-- The tasks finished, with the workers that finished them, in order. -/
def finishes (h : List (Event τ n)) : List (Fin n × τ) :=
  h.filterMap fun
    | .finished w task => some (w, task)
    | _ => none

/-! What one step adds to each of them. -/

section
variable (h : List (Event τ n)) (s : PoolCore κ τ n) (chosen : Option (Fin n)) (w : Fin n)

@[simp] theorem scheduledOf_main :
    scheduledOf (h ++ events s (.main chosen)) = scheduledOf h ++ s.main.pushed := by
  simp [scheduledOf, events, List.filterMap_map]

@[simp] theorem starts_main : starts (h ++ events s (.main chosen)) = starts h := by
  simp [starts, events, List.filterMap_map]

@[simp] theorem finishes_main : finishes (h ++ events s (.main chosen)) = finishes h := by
  simp [finishes, events, List.filterMap_map]

@[simp] theorem scheduledOf_worker :
    scheduledOf (h ++ events s (.worker w)) = scheduledOf h := by
  simp [scheduledOf, events, List.filterMap_map]

@[simp] theorem starts_worker :
    starts (h ++ events s (.worker w)) = starts h ++ (s.taken w).map (Prod.mk w) := by
  simp [starts, events, List.filterMap_map]

@[simp] theorem finishes_worker :
    finishes (h ++ events s (.worker w)) = finishes h ++ (s.worker w).tasks.map (Prod.mk w) := by
  simp [finishes, events, List.filterMap_map]

end

/-! ## The scheduler and the running tasks after one step -/

@[simp] theorem WorkerPc.notified_tasks (pc : WorkerPc τ) : pc.notified.tasks = pc.tasks := by
  cases pc <;> rfl

/-- A step of the owner appends what it pushes, and starts or ends no task. -/
theorem mainMove_tasks (hgrow : GrowInv s) (h : MainMove client s s') :
    s'.scheduler = s.scheduler ++ s.main.pushed ∧
      ∀ v, (s'.worker v).tasks = (s.worker v).tasks := by
  cases h with
  | @lock pc hlock =>
    refine ⟨?_, fun _ => rfl⟩
    cases hmain : s.main with
    | scheduling task k => rw [hmain] at hlock; cases hlock
    | _ => exact (List.append_nil _).symm
  | push hmain =>
    refine ⟨?_, fun _ => rfl⟩
    rw [hmain]
    rfl
  | pushNotify hmain hasleep =>
    refine ⟨?_, atWorker_test WorkerPc.tasks (by rw [asleep_eq hasleep]; rfl)⟩
    rw [hmain]
    rfl
  | create hmain hmore hlt =>
    -- the new worker did not exist, so it ran nothing
    have habsent := (hgrow.fresh (by rw [hmain]; rfl)).2.2.2 ⟨s.workerCount, hlt⟩
    rw [if_neg (Nat.lt_irrefl _)] at habsent
    refine ⟨?_, atWorker_test WorkerPc.tasks (by rw [habsent]; rfl)⟩
    rw [hmain]
    exact (List.append_nil _).symm
  | resizeDown hmain | terminateAll hmain =>
    refine ⟨?_, fun v => WorkerPc.notified_tasks _⟩
    rw [hmain]
    exact (List.append_nil _).symm
  | resizeRefused hmain | resizeUp hmain | created hmain | compute hmain | schedule hmain
  | finish hmain | waitBlock hmain | waited hmain | terminateBlock hmain | startJoin hmain
  | join hmain | joined hmain =>
    refine ⟨?_, fun _ => rfl⟩
    rw [hmain]
    exact (List.append_nil _).symm

/-- A step of a worker removes what it takes from the front, and leaves it
running that and nothing else. -/
theorem workerStep_tasks (h : workerStep s w = some s') :
    s.scheduler = s.taken w ++ s'.scheduler ∧ (s'.worker w).tasks = s.taken w ∧
      ∀ v, v ≠ w → s'.worker v = s.worker v := by
  have hother : ∀ pc v, v ≠ w → (s.atWorker w pc).worker v = s.worker v :=
    fun pc v hv => atWorker_worker_ne s pc hv
  have hself : ∀ pc, ((s.atWorker w pc).worker w).tasks = pc.tasks :=
    fun pc => by rw [atWorker_worker_self]
  unfold PoolCore.taken
  unfold workerStep at h
  cases hw : s.worker w with
  | absent | finished => rw [hw] at h; cases h
  | fetch | destruct =>
    rw [hw] at h
    obtain ⟨-, rfl⟩ := lockWorker_eq_some h
    exact ⟨rfl, hself _, hother _⟩
  | firstTest =>
    rw [hw] at h
    simp only at h
    split at h
    · cases h; exact ⟨rfl, hself _, hother _⟩
    · cases h; exact ⟨rfl, hself _, hother _⟩
  | loopTest =>
    rw [hw] at h
    simp only at h
    split at h
    next hempty =>
      -- nothing to take: the worker leaves or goes to sleep
      rw [hempty]
      split at h
      · cases h; exact ⟨hempty.symm, hself _, hother _⟩
      · cases h; exact ⟨hempty.symm, hself _, hother _⟩
    next task rest htask =>
      rw [htask]
      cases h
      exact ⟨rfl, hself _, hother _⟩
  | blocked notified =>
    rw [hw] at h
    cases notified with
    | false => cases h
    | true =>
      obtain ⟨t, ht, rfl⟩ := Option.map_eq_some_iff.mp h
      obtain ⟨-, rfl⟩ := lockWorker_eq_some ht
      exact ⟨rfl, hself _, hother _⟩
  | running task | exiting => rw [hw] at h; cases h; exact ⟨rfl, hself _, hother _⟩
  | destructing => rw [hw] at h; cases h; exact ⟨rfl, hself _, hother _⟩

/-! ## Order -/

/-- What the history and the state say about each other. -/
structure FifoInv (s : PoolCore κ τ n) (h : List (Event τ n)) : Prop where
  order : scheduledOf h = (starts h).map Prod.snd ++ s.scheduler
  running : ∀ w, valuesAt w (starts h) = valuesAt w (finishes h) ++ (s.worker w).tasks

theorem step_fifoInv {a : Act n} {h : List (Event τ n)} (hgrow : GrowInv s)
    (hinv : FifoInv s h) (hstep : step client s a = some s') :
    FifoInv s' (h ++ events s a) := by
  cases a with
  | main chosen =>
    obtain ⟨hpush, htasks⟩ := mainMove_tasks hgrow (mainStep_move hstep)
    refine ⟨?_, fun v => ?_⟩
    · rw [scheduledOf_main, starts_main, hpush, hinv.order, List.append_assoc]
    · rw [starts_main, finishes_main, htasks v]
      exact hinv.running v
  | worker w =>
    obtain ⟨htake, hself, hother⟩ := workerStep_tasks hstep
    refine ⟨?_, fun v => ?_⟩
    · have hfront : ((s.taken w).map (Prod.mk w)).map Prod.snd = s.taken w := by
        simp [Function.comp_def]
      rw [scheduledOf_worker, starts_worker, List.map_append, hfront, List.append_assoc, ← htake]
      exact hinv.order
    · rw [starts_worker, finishes_worker, valuesAt_append, valuesAt_append, valuesAt_map_mk,
        valuesAt_map_mk]
      by_cases hv : w = v
      · -- what the worker ran is finished now, and what it has taken it runs
        subst hv
        rw [if_pos rfl, if_pos rfl, hself, hinv.running w]
      · rw [if_neg hv, if_neg hv, hother v (Ne.symm hv), List.append_nil, List.append_nil]
        exact hinv.running v
  | spuriousMain =>
    cases hstep
    show FifoInv _ (h ++ [])
    rw [List.append_nil]
    exact ⟨hinv.order, hinv.running⟩
  | spuriousWorker w =>
    cases hstep
    show FifoInv _ (h ++ [])
    rw [List.append_nil]
    refine ⟨hinv.order, fun v => ?_⟩
    rw [atWorker_test WorkerPc.tasks (WorkerPc.notified_tasks _)]
    exact hinv.running v

/-- The history of every run. -/
theorem run_fifoInv {as : List (Act n)} (hrun : run (step client) PoolCore.init as = some s) :
    FifoInv s (poolHistory client n as) := by
  refine history_invariant ⟨rfl, fun _ => rfl⟩ ?_ hrun
  intro s h a s' hreach hinv hstep
  exact step_fifoInv (reachable_poolInv hreach).grow hinv hstep

/-- **No task is lost, repeated or overtaken.** In every run, whatever the
owner does and however the threads interleave, the tasks scheduled so far are
the tasks started so far followed by those pending, in one order; and what a
worker has started it has finished, in that order, except for the one task it
may be running. -/
theorem tasks_once_in_order {as : List (Act n)}
    (hrun : run (step client) PoolCore.init as = some s) :
    scheduledOf (poolHistory client n as)
        = (starts (poolHistory client n as)).map Prod.snd ++ s.scheduler ∧
      ∀ w, valuesAt w (starts (poolHistory client n as))
        = valuesAt w (finishes (poolHistory client n as)) ++ (s.worker w).tasks :=
  ⟨(run_fifoInv hrun).order, (run_fifoInv hrun).running⟩

/-! ## The owner's program -/

/-- The tasks that the owner still has to push, when it is at this place. -/
def Client.Remaining (client : Client κ τ) : MainPc κ τ n → List τ → Prop
  | .construct, ts | .resizeStart, ts | .resizing, ts => client.Schedules client.start ts
  | .client k, ts => client.Schedules k ts
  | .schedule task k, ts | .scheduling task k, ts => ∃ us, ts = task :: us ∧ client.Schedules k us
  | _, ts => ts = []

@[simp] theorem Client.remaining_notified (client : Client κ τ) (pc : MainPc κ τ n)
    (ts : List τ) : client.Remaining pc.notified ts = client.Remaining pc ts := by
  cases pc <;> rfl

/-- A step of the owner pushes the first of the tasks that remain, or none. -/
theorem mainMove_remaining {ts : List τ} (hrem : client.Remaining s.main ts)
    (h : MainMove client s s') :
    ∃ us, ts = s.main.pushed ++ us ∧ client.Remaining s'.main us := by
  cases h with
  | @lock pc hlock =>
    cases hmain : s.main with
    | waitBlocked b | terminateBlocked b =>
      rw [hmain] at hlock hrem
      cases b with
      | true => cases hlock; exact ⟨ts, rfl, hrem⟩
      | false => cases hlock
    | construct | schedule | wait | terminate =>
      rw [hmain] at hlock hrem
      cases hlock
      exact ⟨ts, rfl, hrem⟩
    | _ => rw [hmain] at hlock; cases hlock
  | create hmain =>
    refine ⟨ts, ?_, hrem⟩
    rw [hmain]
    rfl
  | compute hmain hnext =>
    rw [hmain] at hrem ⊢
    cases hrem with
    | compute hnext' hrest => rw [hnext] at hnext'; cases hnext'; exact ⟨ts, rfl, hrest⟩
    | finished hnext' | schedule hnext' => rw [hnext] at hnext'; cases hnext'
  | schedule hmain hnext =>
    rw [hmain] at hrem ⊢
    cases hrem with
    | schedule hnext' hrest => rw [hnext] at hnext'; cases hnext'; exact ⟨_, rfl, _, rfl, hrest⟩
    | finished hnext' | compute hnext' => rw [hnext] at hnext'; cases hnext'
  | finish hmain hnext =>
    rw [hmain] at hrem ⊢
    cases hrem with
    | finished => exact ⟨[], rfl, rfl⟩
    | compute hnext' | schedule hnext' => rw [hnext] at hnext'; cases hnext'
  | push hmain | pushNotify hmain =>
    rw [hmain] at hrem ⊢
    exact hrem
  | resizeRefused hmain | resizeUp hmain | resizeDown hmain | created hmain | waitBlock hmain
  | waited hmain | terminateAll hmain | terminateBlock hmain | startJoin hmain | join hmain
  | joined hmain =>
    rw [hmain] at hrem ⊢
    exact ⟨ts, rfl, hrem⟩

theorem workerMove_remaining {ts : List τ} (h : WorkerMove s w s') :
    client.Remaining s'.main ts = client.Remaining s.main ts := by
  cases h with
  | sleep | destructed => exact client.remaining_notified _ _
  | lock | wake | leave | stay | take | done | exit => rfl

/-- What has been scheduled is what the owner's program comes to, up to what
remains of it. -/
theorem run_remaining {ts : List τ} (hprog : client.Schedules client.start ts)
    {as : List (Act n)} (hrun : run (step client) PoolCore.init as = some s) :
    ∃ us, ts = scheduledOf (poolHistory client n as) ++ us ∧ client.Remaining s.main us := by
  refine @history_invariant _ _ _ (step client) events PoolCore.init
    (fun s h => ∃ us, ts = scheduledOf h ++ us ∧ client.Remaining s.main us)
    ⟨ts, rfl, hprog⟩ ?_ as s hrun
  intro s h a s' _ hinv hstep
  obtain ⟨us, hts, hrem⟩ := hinv
  cases a with
  | main chosen =>
    obtain ⟨vs, hus, hrem'⟩ := mainMove_remaining hrem (mainStep_move hstep)
    refine ⟨vs, ?_, hrem'⟩
    rw [scheduledOf_main, hts, hus, List.append_assoc]
  | worker w =>
    refine ⟨us, by rw [scheduledOf_worker]; exact hts, ?_⟩
    rw [workerMove_remaining (workerStep_move hstep)]
    exact hrem
  | spuriousMain =>
    cases hstep
    refine ⟨us, by rw [hts]; simp [events], ?_⟩
    rw [client.remaining_notified]
    exact hrem
  | spuriousWorker w =>
    cases hstep
    exact ⟨us, by rw [hts]; simp [events], hrem⟩

/-! ## After `wait` -/

/-- Past `wait`. -/
def MainPc.waited : MainPc κ τ n → Bool
  | .terminate | .terminating | .terminateTest | .terminateBlocked _ | .joining _
  | .returned => true
  | _ => false

@[simp] theorem MainPc.notified_waited (pc : MainPc κ τ n) : pc.notified.waited = pc.waited := by
  cases pc <;> rfl

/-- Once the owner has waited, nothing is pending or running. -/
def Drained (s : PoolCore κ τ n) : Prop :=
  s.main.waited = true → s.scheduler = [] ∧ ∀ w, (s.worker w).tasks = []

theorem MainPc.afterLock_waited {pc pc' : MainPc κ τ n} (h : pc.afterLock = some pc') :
    pc'.waited = pc.waited := by
  unfold MainPc.afterLock at h
  split at h <;> cases h <;> rfl

/-- The owner gets past `wait` only when nobody is active and nothing is
pending. -/
theorem mainStep_waited {chosen : Option (Fin n)} (h : mainStep client s chosen = some s')
    (hafter : s'.main.waited = true) :
    s.main.waited = true ∨ s.activeWorkerCount = 0 ∧ s.scheduler = [] := by
  cases mainStep_move h with
  | lock hlock => exact .inl ((MainPc.afterLock_waited hlock).symm.trans hafter)
  | create => exact .inl hafter
  | waited hmain =>
    right
    unfold mainStep at h
    rw [hmain] at h
    simp only at h
    split at h
    next => cases h
    next hidle =>
      rw [not_or, not_not, Bool.not_eq_false, List.isEmpty_iff] at hidle
      exact hidle
  | terminateAll hmain | terminateBlock hmain | startJoin hmain | join hmain | joined hmain =>
    left
    rw [hmain]
    rfl
  | resizeRefused | resizeUp | resizeDown | created | compute | schedule | finish | push
  | pushNotify | waitBlock => cases hafter

theorem WorkerPc.active_of_tasks {pc : WorkerPc τ} (h : pc.active = false) : pc.tasks = [] := by
  cases pc with
  | running task => cases h
  | _ => rfl

theorem step_drained {a : Act n} (hpool : PoolInv s) (hinv : Drained s)
    (hstep : step client s a = some s') : Drained s' := by
  intro hafter
  cases a with
  | main chosen =>
    obtain ⟨hpush, htasks⟩ := mainMove_tasks hpool.grow (mainStep_move hstep)
    have hbefore : s.scheduler = [] ∧ ∀ w, (s.worker w).tasks = [] := by
      rcases mainStep_waited hstep hafter with hwaited | ⟨hidle, hempty⟩
      · exact hinv hwaited
      · -- nobody is active, so nobody runs a task
        rw [hpool.count.active, countWhere_eq_zero] at hidle
        exact ⟨hempty, fun w => WorkerPc.active_of_tasks (hidle w)⟩
    have hnone : s.main.pushed = [] := by
      cases hmain : s.main with
      | scheduling task k =>
        -- a push leads back to the owner's program
        cases mainStep_move hstep with
        | push | pushNotify => cases hafter
        | lock hlock => rw [hmain] at hlock; cases hlock
        | create h | terminateAll h | terminateBlock h | startJoin h | join h | joined h
        | waited h => rw [hmain] at h; cases h
        | resizeRefused | resizeUp | resizeDown | created | compute | schedule | finish
        | waitBlock => cases hafter
      | _ => rfl
    refine ⟨?_, fun v => ?_⟩
    · rw [hpush, hbefore.1, hnone]
      rfl
    · rw [htasks v]
      exact hbefore.2 v
  | worker w =>
    obtain ⟨htake, hself, hother⟩ := workerStep_tasks hstep
    have hmain : s'.main.waited = s.main.waited := by
      cases workerStep_move hstep with
      | sleep | destructed => exact MainPc.notified_waited _
      | lock | wake | leave | stay | take | done | exit => rfl
    obtain ⟨hempty, hnone⟩ := hinv (hmain.symm.trans hafter)
    rw [hempty] at htake
    obtain ⟨htaken, hrest⟩ := List.append_eq_nil_iff.mp htake.symm
    refine ⟨hrest, fun v => ?_⟩
    by_cases hv : v = w
    · rw [hv, hself, htaken]
    · rw [hother v hv]
      exact hnone v
  | spuriousMain =>
    cases hstep
    exact hinv ((MainPc.notified_waited _).symm.trans hafter)
  | spuriousWorker w =>
    cases hstep
    refine ⟨(hinv hafter).1, fun v => ?_⟩
    rw [atWorker_test WorkerPc.tasks (WorkerPc.notified_tasks _)]
    exact (hinv hafter).2 v

/-- In every reachable state. -/
theorem reachable_drained (h : Reachable (step client) (PoolCore.init : PoolCore κ τ n) s) :
    Drained s := by
  have hboth : PoolInv s ∧ Drained s := by
    refine @Reachable.invariant _ _ _ (fun s => PoolInv s ∧ Drained s) _ _ h
      ⟨init_poolInv, fun h => (by cases h)⟩ ?_
    intro s a s' hinv hstep
    exact ⟨step_poolInv hinv.1 hstep, step_drained hinv.1 hinv.2 hstep⟩
  exact hboth.2

/-! ## The history at the end -/

/-- Past `wait`, everything scheduled has been started and finished. -/
theorem run_drained {as : List (Act n)} (hrun : run (step client) PoolCore.init as = some s)
    (hwaited : s.main.waited = true) :
    (starts (poolHistory client n as)).map Prod.snd = scheduledOf (poolHistory client n as) ∧
      ∀ w, valuesAt w (finishes (poolHistory client n as))
        = valuesAt w (starts (poolHistory client n as)) := by
  have hfifo := run_fifoInv hrun
  obtain ⟨hempty, hnone⟩ := reachable_drained ⟨as, hrun⟩ hwaited
  constructor
  · rw [hfifo.order, hempty, List.append_nil]
  · intro w
    rw [hfifo.running w, hnone w, List.append_nil]

/-- What the owner has returned from is its whole program. -/
theorem run_returned {ts : List τ} (hprog : client.Schedules client.start ts)
    {as : List (Act n)} (hrun : run (step client) PoolCore.init as = some s)
    (hret : s.main = .returned) :
    (starts (poolHistory client n as)).map Prod.snd = ts ∧
      ((finishes (poolHistory client n as)).map Prod.snd).Perm ts := by
  obtain ⟨hstarted, hfinished⟩ := run_drained hrun (by rw [hret]; rfl)
  obtain ⟨us, hts, hrem⟩ := run_remaining hprog hrun
  rw [hret] at hrem
  rw [show us = [] from hrem, List.append_nil, ← hstarted] at hts
  refine ⟨hts.symm, ?_⟩
  rw [hts]
  exact perm_of_valuesAt hfinished

/-- **Once the owner has returned, all its tasks have run.** They have been
started in the order of its program, each once, and every one of them has been
finished by the worker that started it. -/
theorem returned_all_run {ts : List τ} (hprog : client.Schedules client.start ts)
    {as : List (Act n)} (hrun : run (step client) PoolCore.init as = some s)
    (hret : s.main = .returned) :
    (starts (poolHistory client n as)).map Prod.snd = ts ∧
      ((finishes (poolHistory client n as)).map Prod.snd).Perm ts ∧
      ∀ w, valuesAt w (finishes (poolHistory client n as))
        = valuesAt w (starts (poolHistory client n as)) := by
  obtain ⟨hstarted, hperm⟩ := run_returned hprog hrun hret
  exact ⟨hstarted, hperm, (run_drained hrun (by rw [hret]; rfl)).2⟩

/-! ## A run with two tasks -/

/-- An owner that schedules the tasks of a list. -/
def listClient (ts : List τ) : Client (List τ) τ where
  start := ts
  next
    | [] => .finished
    | task :: rest => .schedule task rest

theorem listClient_schedules (ts : List τ) :
    ∀ us : List τ, (listClient ts).Schedules us us
  | [] => .finished rfl
  | _ :: us => .schedule rfl (listClient_schedules ts us)

/-- One worker: it is created, two tasks are scheduled, it runs both and goes
to sleep, and the owner waits, terminates and returns. -/
def twoTasksRun : List (Act 1) :=
  List.replicate 11 (.main none) ++ List.replicate 11 (.worker (Fin.last 0))
    ++ List.replicate 6 (.main none)

/-- The theorem halfway through that run: one task finished, one pending. -/
theorem tasks_once_in_order_halfway :
    ∃ s, run (step (listClient [7, 7])) PoolCore.init (twoTasksRun.take 15) = some s ∧
      scheduledOf (poolHistory (listClient [7, 7]) 1 (twoTasksRun.take 15))
        = (starts (poolHistory (listClient [7, 7]) 1 (twoTasksRun.take 15))).map Prod.snd
          ++ s.scheduler ∧
      ∀ w, valuesAt w (starts (poolHistory (listClient [7, 7]) 1 (twoTasksRun.take 15)))
        = valuesAt w (finishes (poolHistory (listClient [7, 7]) 1 (twoTasksRun.take 15)))
          ++ (s.worker w).tasks := by
  have hrun : (run (step (listClient [7, 7])) PoolCore.init (twoTasksRun.take 15)).map
      (fun s => s.scheduler) = some [7] := rfl
  obtain ⟨s, hs, -⟩ := Option.map_eq_some_iff.mp hrun
  exact ⟨s, hs, tasks_once_in_order hs⟩

/-- The theorem at the end of that run. -/
theorem returned_all_run_two_tasks :
    (starts (poolHistory (listClient [7, 7]) 1 twoTasksRun)).map Prod.snd = [7, 7] ∧
      ((finishes (poolHistory (listClient [7, 7]) 1 twoTasksRun)).map Prod.snd).Perm [7, 7] ∧
      ∀ w, valuesAt w (finishes (poolHistory (listClient [7, 7]) 1 twoTasksRun))
        = valuesAt w (starts (poolHistory (listClient [7, 7]) 1 twoTasksRun)) := by
  have hrun : (run (step (listClient [7, 7])) PoolCore.init twoTasksRun).map
      (fun s => s.main) = some .returned := rfl
  obtain ⟨s, hs, hret⟩ := Option.map_eq_some_iff.mp hrun
  exact returned_all_run (listClient_schedules [7, 7] [7, 7]) hs hret

end Satf.Pool
