import Satf.Future.Delivery
import Satf.ThreadPool.Rest
import Satf.ThreadPool.Tasks

/-!
# Futures in a pool

`schedule` of `future.hpp`: it makes a future and hands the pool a
`future_impl_task_func`, which holds the function and a pointer to the future.
Here the pool and all the futures made so far move together. Any number of
threads schedule functions, call the pool, and call the futures.

The tasks of the pool are numbered as they are made, and future `k` belongs to
task `k`. A worker that takes task `k` calls its `operator()`; from then on the
task's steps are those of future `k`, and the worker goes on when `operator()`
has returned or thrown. A task that the scheduler drops or refuses is destroyed.
`schedule` does not look at what the pool's `schedule` answers.

> `pool_reachable`, `future_reachable`: in every run, the pool's part is a run
> of the pool, and the part of each future one of that future.

So what holds of every run of a pool, and of every run of a future, holds here.
-/

namespace Satf.Scheduled

open Satf.Lib
open Satf.ThreadPool (SchedulingPolicy PoolState)
open Satf.Future (FutureImpl TaskPc)

variable {σ ρ ι : Type}

/-! ## States -/

/-- The pool, and the futures that have been made. -/
structure State (σ ρ ι : Type) where
  pool : PoolState σ Nat ι
  count : Nat
  future : Nat → FutureImpl ρ ι

/-- `memory k` is what the memory of future `k` holds at first. -/
def State.init (policy : SchedulingPolicy σ Nat) (memory : Nat → Bool) : State σ ρ ι where
  pool := .init policy
  count := 0
  future := fun k => .init (memory k)

/-- Some worker is executing task `k`. -/
def State.runs (s : State σ ρ ι) (k : Nat) : Bool :=
  s.pool.workers.any fun pc => pc.tasks.contains k

/-! ## Steps -/

section
variable (policy : SchedulingPolicy σ Nat)

/-- The task that the scheduler refuses in a step of the pool. -/
def refused (s : PoolState σ Nat ι) : ThreadPool.Act Nat ι → Option Nat
  | .caller i _ _ =>
    match s.caller i with
    | .scheduling task => if (policy.push s.scheduler task).isNone then some task else none
    | _ => none
  | _ => none

/-- What becomes of a task in a step of the pool. -/
inductive Fate where
  | kept
  | called
  | destroyed

/-- What becomes of task `k`. -/
def fate [DecidableEq ι] (s : PoolState σ Nat ι) (a : ThreadPool.Act Nat ι) (k : Nat) : Fate :=
  match ThreadPool.events policy s a with
  | [.started _ task] => if task = k then .called else .kept
  | [.cleared tasks] => if k ∈ tasks then .destroyed else .kept
  | _ => if refused policy s a = some k then .destroyed else .kept

end

/-- Where the task is then. -/
def Fate.place : Fate → TaskPc ρ → TaskPc ρ
  | .kept, pc => pc
  | .called, _ => .testFunction
  | .destroyed, _ => .dropped

/-- Whether the pool may take this step: a worker that executes a task waits for
it to return or throw. The pool's own `schedule` is called by `schedule`. -/
def State.mayStep (s : State σ ρ ι) : ThreadPool.Act Nat ι → Bool
  | .call _ (.schedule _) => false
  | .worker w _ =>
    match s.pool.workers[w]? with
    | some (.running k) =>
      match (s.future k).task with
      | .done => true
      | _ => false
    | _ => true
  | .throws w =>
    match s.pool.workers[w]? with
    | some (.running k) =>
      match (s.future k).task with
      | .threw => true
      | _ => false
    | _ => true
  | _ => true

/-- Whether future `k` may take this step: its task moves while a worker
executes it, and it can be called once it has been made. -/
def State.mayMove (s : State σ ρ ι) (k : Nat) : Future.Act ρ ι → Bool
  | .task | .returns _ | .throws => s.runs k
  | .drop => false
  | _ => k < s.count

/-- Who moves: a thread begins `schedule`, a thread in the pool goes on or calls
the pool, or something happens to future `k`. -/
inductive Act (ρ ι : Type) where
  | schedule (i : ι)
  | pool (a : ThreadPool.Act Nat ι)
  | future (k : Nat) (a : Future.Act ρ ι)

/-- One step of the system; `function k` says whether the function of task `k`
is not empty. -/
def step [DecidableEq ι] (policy : SchedulingPolicy σ Nat) (function : Nat → Bool)
    (s : State σ ρ ι) : Act ρ ι → Option (State σ ρ ι)
  | .schedule i =>
    (ThreadPool.step policy s.pool (.call i (.schedule s.count))).map fun pool =>
      { s with pool := pool, count := s.count + 1 }
  | .pool a =>
    if s.mayStep a then
      (ThreadPool.step policy s.pool a).map fun pool =>
        { s with
          pool := pool
          future := fun k =>
            { s.future k with task := (fate policy s.pool a k).place (s.future k).task } }
    else none
  | .future k a =>
    if s.mayMove k a then
      (Future.step (function k) (s.future k) a).map fun future =>
        { s with future := Function.update s.future k future }
    else none

/-! ## What a step of the pool does with the tasks -/

/-- The task that a caller is handing to the pool. -/
def heldAt : ThreadPool.CallerPc Nat → Option Nat
  | .schedule task | .scheduling task => some task
  | _ => none

/-- The tasks that the callers are handing to the pool. -/
def held (s : PoolState σ Nat ι) (i : ι) : Option Nat := heldAt (s.caller i)

/-- The tasks that the workers are executing. -/
def running (s : PoolState σ Nat ι) (w : Nat) : List Nat := ThreadPool.runningOf s.workers w

/-- A step of the pool, as far as the tasks go. -/
inductive Handled [DecidableEq ι] (policy : SchedulingPolicy σ Nat) (s s' : PoolState σ Nat ι)
    (a : ThreadPool.Act Nat ι) : Prop where
  | kept (hheld : held s' = held s) (hscheduler : s'.scheduler = s.scheduler)
      (hrunning : running s' = running s) (hfate : ∀ k, fate policy s a k = .kept)
  | handed {i task} (ha : a = .call i (.schedule task)) (hidle : held s i = none)
      (hheld : held s' = Function.update (held s) i (some task))
      (hscheduler : s'.scheduler = s.scheduler) (hrunning : running s' = running s)
  | refused {i task} (htask : held s i = some task)
      (hheld : held s' = Function.update (held s) i none) (hscheduler : s'.scheduler = s.scheduler)
      (hrunning : running s' = running s)
      (hfate : ∀ k, fate policy s a k = if task = k then .destroyed else .kept)
  | pushed {i task} (htask : held s i = some task)
      (hheld : held s' = Function.update (held s) i none)
      (hscheduler : policy.tasks s'.scheduler = task ::ₘ policy.tasks s.scheduler)
      (hrunning : running s' = running s) (hfate : ∀ k, fate policy s a k = .kept)
  | cleared (hheld : held s' = held s) (hscheduler : policy.tasks s'.scheduler = 0)
      (hrunning : running s' = running s)
      (hfate : ∀ k, fate policy s a k
        = if k ∈ policy.tasks s.scheduler then .destroyed else .kept)
  | taken {w task} (hheld : held s' = held s) (hnone : running s w = [])
      (hscheduler : policy.tasks s.scheduler = task ::ₘ policy.tasks s'.scheduler)
      (hrunning : running s' = Function.update (running s) w [task])
      (hfate : ∀ k, fate policy s a k = if task = k then .called else .kept)
  | ended {w task} (ha : (∃ created, a = .worker w created) ∨ a = .throws w)
      (hheld : held s' = held s) (hscheduler : s'.scheduler = s.scheduler)
      (hw : s.workers[w]? = some (.running task))
      (hrunning : running s' = Function.update (running s) w [])
      (hfate : ∀ k, fate policy s a k = .kept)

section
variable [DecidableEq ι] {policy : SchedulingPolicy σ Nat} {s s' : PoolState σ Nat ι} {i : ι}
  {w : Nat} {created : Bool} {a : ThreadPool.Act Nat ι} {es : List (ThreadPool.Event Nat)}

omit [DecidableEq ι] in
theorem heldAt_notified (pc : ThreadPool.CallerPc Nat) : heldAt pc.notified = heldAt pc := by
  cases pc <;> rfl

theorem heldAt_afterLock {pc pc' : ThreadPool.CallerPc Nat} (h : pc.afterLock = some pc') :
    heldAt pc' = heldAt pc := by
  cases pc with
  | waitBlocked timed threshold notified | terminateBlocked notified =>
    cases notified <;> cases h; rfl
  | _ => cases h <;> rfl

/-- A caller goes on. -/
theorem held_update {pc : ThreadPool.CallerPc Nat} {task : Option Nat}
    (hcaller : s'.caller = Function.update s.caller i pc) (hpc : heldAt pc = task) :
    held s' = Function.update (held s) i task := by
  subst hpc
  funext j
  unfold held
  rw [hcaller]
  by_cases hj : j = i
  · subst hj
    rw [Function.update_self, Function.update_self]
  · rw [Function.update_of_ne hj, Function.update_of_ne hj]

/-- It holds after it what it held before. -/
theorem held_same {pc : ThreadPool.CallerPc Nat}
    (hcaller : s'.caller = Function.update s.caller i pc) (hpc : heldAt pc = held s i) :
    held s' = held s := by
  rw [held_update hcaller hpc, Function.update_eq_self]

omit [DecidableEq ι] in
/-- Worker `w` goes on. -/
theorem running_update {pc pc' : ThreadPool.WorkerPc Nat} {tasks : List Nat}
    (hw : s.workers[w]? = some pc) (hworkers : s'.workers = s.workers.set w pc')
    (htasks : pc'.tasks = tasks) : running s' = Function.update (running s) w tasks := by
  subst htasks
  funext v
  unfold running
  rw [hworkers, ThreadPool.runningOf_set hw]
  by_cases hv : w = v
  · subst hv
    rw [if_pos rfl, Function.update_self]
  · rw [if_neg hv, Function.update_of_ne (Ne.symm hv)]

omit [DecidableEq ι] in
theorem running_same {pc pc' : ThreadPool.WorkerPc Nat} (hw : s.workers[w]? = some pc)
    (hworkers : s'.workers = s.workers.set w pc') (htasks : pc'.tasks = pc.tasks) :
    running s' = running s := by
  funext v
  unfold running
  rw [hworkers, ThreadPool.runningOf_same hw htasks]

theorem fate_kept (hes : ThreadPool.events policy s a = []) (hrefused : refused policy s a = none)
    (k : Nat) : fate policy s a k = .kept := by
  unfold fate
  rw [hes, hrefused]
  rfl

omit [DecidableEq ι] in
theorem not_refused {chosen : Option Nat} (h : ∀ task, s.caller i ≠ .scheduling task) :
    refused policy s (.caller i chosen created) = none := by
  cases hcaller : s.caller i with
  | scheduling task => exact absurd hcaller (h task)
  | _ => simp only [refused, hcaller]

theorem callerMove_handled {chosen : Option Nat}
    (h : ThreadPool.CallerMove policy s i created s'
      (ThreadPool.events policy s (.caller i chosen created))) :
    Handled policy s s' (.caller i chosen created) := by
  generalize hes : ThreadPool.events policy s (.caller i chosen created) = es at h
  -- the caller goes from one place to another, and holds what it held
  have hkept : ∀ {pc pc' : ThreadPool.CallerPc Nat}, s.caller i = pc → es = [] →
      s'.caller = Function.update s.caller i pc' → heldAt pc' = heldAt pc →
      (∀ task, pc ≠ .scheduling task) → s'.scheduler = s.scheduler → running s' = running s →
      Handled policy s s' (.caller i chosen created) := by
    intro pc pc' hpc hnil hcaller hsame hnot hscheduler hrunning
    refine .kept (held_same hcaller (by rw [hsame, held, hpc])) hscheduler hrunning ?_
    exact fate_kept (hes.trans hnil) (not_refused fun task => hpc ▸ hnot task)
  have hnotified :
      running ({ s with workers := s.workers.map ThreadPool.WorkerPc.notified }) = running s :=
    funext (ThreadPool.runningOf_notified _)
  cases h with
  | @lock pc hlock =>
    refine hkept rfl rfl rfl (heldAt_afterLock hlock) (fun task h => ?_) rfl rfl
    rw [h] at hlock
    cases hlock
  | waitBlock hcaller | waited hcaller | gaveUp hcaller | resizeRefused hcaller
  | resizeUp hcaller | resized hcaller | terminateBlock hcaller | startJoin hcaller | join hcaller
  | joined hcaller => exact hkept hcaller rfl rfl rfl (fun _ h => by cases h) rfl rfl
  | resizeDown hcaller | terminateJoin hcaller | terminate hcaller =>
    exact hkept hcaller rfl rfl rfl (fun _ h => by cases h) rfl hnotified
  | create hcaller =>
    refine .kept rfl rfl (funext (ThreadPool.runningOf_create _)) ?_
    exact fate_kept hes (not_refused fun task h => by rw [hcaller] at h; cases h)
  | @refused task hcaller hpush =>
    refine .refused (by rw [held, hcaller]; rfl) (held_update rfl rfl) rfl rfl fun k => ?_
    unfold fate
    rw [hes, refused, hcaller]
    simp [hpush]
  | @push task c hcaller hpush | @pushNotify task c w hcaller hpush hasleep =>
    refine .pushed (by rw [held, hcaller]; rfl) (held_update rfl rfl) (policy.tasks_push hpush) ?_
      fun k => ?_
    · first | rfl | exact running_same hasleep rfl rfl
    · unfold fate
      rw [hes, refused, hcaller]
      simp [hpush]
  | cleared hcaller =>
    refine .cleared (held_same rfl (by rw [held, hcaller]; rfl)) policy.tasks_clear rfl fun k => ?_
    unfold fate
    rw [hes]

omit [DecidableEq ι] in
theorem workerMove_handled [DecidableEq ι]
    (ha : (∃ created, a = .worker w created) ∨ a = .throws w)
    (h : ThreadPool.WorkerMove policy s w created s' (ThreadPool.events policy s a)) :
    Handled policy s s' a := by
  have hrefused : refused policy s a = none := by
    rcases ha with ⟨_, rfl⟩ | rfl <;> rfl
  generalize hes : ThreadPool.events policy s a = es at h
  have hkept : ∀ {pc pc' : ThreadPool.WorkerPc Nat}, s.workers[w]? = some pc → es = [] →
      held s' = held s → s'.scheduler = s.scheduler → s'.workers = s.workers.set w pc' →
      pc'.tasks = pc.tasks → Handled policy s s' a := by
    intro pc pc' hw hnil hheld hscheduler hworkers htasks
    exact .kept hheld hscheduler (running_same hw hworkers htasks)
      (fate_kept (hes.trans hnil) hrefused)
  cases h with
  | lock hw hlock => exact hkept hw rfl rfl rfl rfl (ThreadPool.WorkerPc.afterLock_tasks hlock)
  | leave hw hpc => exact hkept hw rfl rfl rfl rfl (by rcases hpc with rfl | rfl <;> rfl)
  | wake hw | stay hw | replaced hw | exit hw => exact hkept hw rfl rfl rfl rfl rfl
  | sleep hw | destructed hw | diedTerminating hw | replace hw =>
    exact hkept hw rfl (funext fun i => heldAt_notified _) rfl rfl rfl
  | create hw =>
    exact .kept rfl rfl (funext (ThreadPool.runningOf_create _)) (fate_kept hes hrefused)
  | @take task hw hsome htop =>
    obtain ⟨task', htop', htasks⟩ := policy.tasks_pop hsome
    cases htop.symm.trans htop'
    refine .taken rfl ?_ htasks (running_update hw rfl rfl) fun k => ?_
    · rw [running, ThreadPool.runningOf, hw]
      rfl
    · unfold fate
      rw [hes]
  | returned hw | threw hw =>
    refine .ended ha rfl rfl hw (running_update hw rfl rfl) fun k => ?_
    unfold fate
    rw [hes, hrefused]
    rfl

theorem step_handled (h : ThreadPool.step policy s a = some s') : Handled policy s s' a := by
  obtain ⟨i, created, hmove, chosen, rfl⟩ | ⟨w, created, hmove, ha⟩ | ⟨hmove, hes⟩ :=
    ThreadPool.step_cases h
  · exact callerMove_handled hmove
  · exact workerMove_handled (ha.imp (fun h => ⟨created, h⟩) And.left) hmove
  · have hfate : refused policy s a = none → ∀ k, fate policy s a k = .kept := fate_kept hes
    cases hmove with
    | @call i hcaller call =>
      cases call with
      | schedule task =>
        exact .handed rfl (by rw [held, hcaller]; rfl) (held_update rfl rfl) rfl rfl
      | _ => exact .kept (held_same rfl (by rw [held, hcaller]; rfl)) rfl rfl (hfate rfl)
    | timeout hcaller =>
      exact .kept (held_same rfl (by rw [held, hcaller]; rfl)) rfl rfl (hfate rfl)
    | spuriousCaller i =>
      exact .kept (held_same rfl (heldAt_notified _)) rfl rfl (hfate rfl)
    | @spuriousWorker w pc hw =>
      exact .kept rfl rfl (running_same hw rfl (by cases pc <;> rfl)) (hfate rfl)

end

/-! ## Where every task is -/

/-- `operator()` is being executed. -/
def executing : TaskPc ρ → Bool
  | .scheduled | .done | .threw | .dropped => false
  | _ => true

/-- `operator()` has returned or thrown. -/
def hasLeft : TaskPc ρ → Bool
  | .done | .threw => true
  | _ => false

/-- A task that has not been called is with one thread that schedules it, or in
the scheduler, and once; and a worker executes it while `operator()` does. -/
structure Places (count : Nat) (held : ι → Option Nat) (pending : Multiset Nat)
    (running : Nat → List Nat) (task : Nat → TaskPc ρ) : Prop where
  fresh : ∀ k, count ≤ k → task k = .scheduled
  handed : ∀ i k, held i = some k → k < count ∧ task k = .scheduled ∧ k ∉ pending
  once : ∀ i j k, held i = some k → held j = some k → i = j
  queued : ∀ k ∈ pending, k < count ∧ task k = .scheduled
  nodup : pending.Nodup
  called : ∀ w, ∀ k ∈ running w, executing (task k) = true ∨ hasLeft (task k) = true
  waits : ∀ k < count, task k = .scheduled → k ∈ pending ∨ ∃ i, held i = some k
  worked : ∀ k, executing (task k) = true → ∃ w, k ∈ running w

section
variable {count : Nat} {held : ι → Option Nat} {pending rest : Multiset Nat}
  {running : Nat → List Nat} {task : Nat → TaskPc ρ} {i : ι} {w k : Nat}

theorem Places.not_scheduled (h : Places count held pending running task) (hk : k ∈ running w) :
    task k ≠ .scheduled := by
  intro hscheduled
  rcases h.called w k hk with h | h <;> rw [hscheduled] at h <;> cases h

theorem update_held [DecidableEq ι] {j : ι} {v : Nat}
    (h : Function.update held i none j = some v) : j ≠ i ∧ held j = some v := by
  by_cases hj : j = i
  · subst hj
    rw [Function.update_self] at h
    cases h
  · exact ⟨hj, by rwa [Function.update_of_ne hj] at h⟩

/-- A new task is handed over. -/
theorem Places.hand [DecidableEq ι] (h : Places count held pending running task)
    (hidle : held i = none) :
    Places (count + 1) (Function.update held i (some count)) pending running task where
  fresh v hv := h.fresh v (Nat.le_of_succ_le hv)
  handed j v hv := by
    by_cases hj : j = i
    · subst hj
      rw [Function.update_self] at hv
      cases hv
      exact ⟨Nat.lt_succ_self _, h.fresh _ (Nat.le_refl _), fun hmem =>
        Nat.lt_irrefl _ (h.queued _ hmem).1⟩
    · rw [Function.update_of_ne hj] at hv
      obtain ⟨hlt, hrest⟩ := h.handed j v hv
      exact ⟨Nat.lt_succ_of_lt hlt, hrest⟩
  once := by
    -- nobody else holds the new one
    have hnew : ∀ j v, j ≠ i → Function.update held i (some count) j = some v → v ≠ count := by
      intro j v hj hv heq
      rw [Function.update_of_ne hj] at hv
      exact Nat.ne_of_lt (h.handed j v hv).1 heq
    intro j j' v hj hj'
    by_cases hji : j = i
    · subst hji
      by_contra hne
      rw [Function.update_self] at hj
      exact hnew j' v (Ne.symm hne) hj' (Option.some.inj hj).symm
    · by_cases hji' : j' = i
      · subst hji'
        rw [Function.update_self] at hj'
        exact absurd (Option.some.inj hj').symm (hnew j v hji hj)
      · rw [Function.update_of_ne hji] at hj
        rw [Function.update_of_ne hji'] at hj'
        exact h.once j j' v hj hj'
  queued v hv := ⟨Nat.lt_succ_of_lt (h.queued v hv).1, (h.queued v hv).2⟩
  nodup := h.nodup
  called := h.called
  waits v hv hscheduled := by
    rcases Nat.lt_succ_iff_lt_or_eq.mp hv with hlt | rfl
    · refine (h.waits v hlt hscheduled).imp_right fun ⟨j, hj⟩ => ⟨j, ?_⟩
      rw [Function.update_of_ne (fun heq => by rw [heq, hidle] at hj; cases hj)]
      exact hj
    · exact .inr ⟨i, Function.update_self _ _ _⟩
  worked := h.worked

/-- The task that is handed over is refused. -/
theorem Places.refuse [DecidableEq ι] (h : Places count held pending running task)
    (hk : held i = some k) :
    Places count (Function.update held i none) pending running
      (Function.update task k .dropped) := by
  obtain ⟨hlt, hscheduled, hnot⟩ := h.handed i k hk
  have hother : ∀ v, v ≠ k → Function.update task k .dropped v = task v :=
    fun _ hv => Function.update_of_ne hv _ _
  refine ⟨fun v hv => ?_, fun j v hv => ?_, fun j j' v hj hj' => ?_, fun v hv => ?_, h.nodup,
    fun u v hv => ?_, fun v hv hnone => ?_, fun v hv => ?_⟩
  · rw [hother v (by omega)]
    exact h.fresh v hv
  · obtain ⟨hj, hv⟩ := update_held hv
    rw [hother v fun heq => hj (h.once j i v hv (heq ▸ hk))]
    exact h.handed j v hv
  · exact h.once j j' v (update_held hj).2 (update_held hj').2
  · rw [hother v fun heq => hnot (heq ▸ hv)]
    exact h.queued v hv
  · rw [hother v fun heq => h.not_scheduled hv (heq ▸ hscheduled)]
    exact h.called u v hv
  · have hne : v ≠ k := fun heq => by
      rw [heq, Function.update_self] at hnone
      cases hnone
    rw [hother v hne] at hnone
    refine (h.waits v hv hnone).imp_right fun ⟨j, hj⟩ => ⟨j, ?_⟩
    rw [Function.update_of_ne (fun heq => hne (Option.some.inj (by rw [← hj, heq, hk])))]
    exact hj
  · have hne : v ≠ k := fun heq => by
      rw [heq, Function.update_self] at hv
      cases hv
    rw [hother v hne] at hv
    exact h.worked v hv

/-- The task that is handed over is pushed. -/
theorem Places.push [DecidableEq ι] (h : Places count held pending running task)
    (hk : held i = some k) :
    Places count (Function.update held i none) (k ::ₘ pending) running task := by
  obtain ⟨hlt, hscheduled, hnot⟩ := h.handed i k hk
  refine ⟨h.fresh, fun j v hv => ?_, fun j j' v hj hj' => ?_, fun v hv => ?_,
    Multiset.nodup_cons.mpr ⟨hnot, h.nodup⟩, h.called, fun v hv hnone => ?_, h.worked⟩
  · obtain ⟨hj, hv⟩ := update_held hv
    obtain ⟨hlt', hscheduled', hnot'⟩ := h.handed j v hv
    refine ⟨hlt', hscheduled', fun hmem => ?_⟩
    rcases Multiset.mem_cons.mp hmem with rfl | hmem
    · exact hj (h.once j i v hv hk)
    · exact hnot' hmem
  · exact h.once j j' v (update_held hj).2 (update_held hj').2
  · rcases Multiset.mem_cons.mp hv with rfl | hv
    · exact ⟨hlt, hscheduled⟩
    · exact h.queued v hv
  · by_cases hvk : v = k
    · exact .inl (hvk ▸ Multiset.mem_cons_self k pending)
    · refine (h.waits v hv hnone).imp (Multiset.mem_cons_of_mem) fun ⟨j, hj⟩ => ⟨j, ?_⟩
      rw [Function.update_of_ne (fun heq => hvk (Option.some.inj (by rw [← hj, heq, hk])))]
      exact hj

/-- The scheduler drops what is pending. -/
theorem Places.clear (h : Places count held pending running task) :
    Places count held 0 running (fun k => if k ∈ pending then .dropped else task k) := by
  have hother : ∀ v, v ∉ pending → (if v ∈ pending then .dropped else task v) = task v :=
    fun _ hv => if_neg hv
  refine ⟨fun v hv => ?_, fun j v hv => ?_, h.once, fun v hv => absurd hv (Multiset.notMem_zero v),
    Multiset.nodup_zero, fun u v hv => ?_, fun v hv hnone => ?_, fun v hv => ?_⟩
  · rw [hother v fun hmem => Nat.not_lt.mpr hv (h.queued v hmem).1]
    exact h.fresh v hv
  · obtain ⟨hlt, hscheduled, hnot⟩ := h.handed j v hv
    rw [hother v hnot]
    exact ⟨hlt, hscheduled, Multiset.notMem_zero v⟩
  · rw [hother v fun hmem => h.not_scheduled hv (h.queued v hmem).2]
    exact h.called u v hv
  · by_cases hmem : v ∈ pending
    · rw [if_pos hmem] at hnone
      cases hnone
    · rw [hother v hmem] at hnone
      exact .inr ((h.waits v hv hnone).resolve_left hmem)
  · by_cases hmem : v ∈ pending
    · rw [if_pos hmem] at hv
      cases hv
    · rw [hother v hmem] at hv
      exact h.worked v hv

/-- A worker takes a task and calls it. -/
theorem Places.take (h : Places count held (k ::ₘ rest) running task) (hnone : running w = []) :
    Places count held rest (Function.update running w [k])
      (Function.update task k .testFunction) := by
  obtain ⟨hlt, hscheduled⟩ := h.queued k (Multiset.mem_cons_self k rest)
  obtain ⟨hnot, hnodup⟩ := Multiset.nodup_cons.mp h.nodup
  have hother : ∀ v, v ≠ k → Function.update task k .testFunction v = task v :=
    fun _ hv => Function.update_of_ne hv _ _
  refine ⟨fun v hv => ?_, fun j v hv => ?_, h.once, fun v hv => ?_, hnodup, fun u v hv => ?_,
    fun v hv hscheduled' => ?_, fun v hv => ?_⟩
  · rw [hother v (by omega)]
    exact h.fresh v hv
  · obtain ⟨hlt', hscheduled', hnot'⟩ := h.handed j v hv
    rw [hother v fun heq => hnot' (by rw [heq]; exact Multiset.mem_cons_self k rest)]
    exact ⟨hlt', hscheduled', fun hmem => hnot' (Multiset.mem_cons_of_mem hmem)⟩
  · rw [hother v fun heq => hnot (heq ▸ hv)]
    exact h.queued v (Multiset.mem_cons_of_mem hv)
  · by_cases hu : u = w
    · rw [hu, Function.update_self, List.mem_singleton] at hv
      rw [hv, Function.update_self]
      exact .inl rfl
    · rw [Function.update_of_ne hu] at hv
      rw [hother v fun heq => h.not_scheduled hv (heq ▸ hscheduled)]
      exact h.called u v hv
  · have hne : v ≠ k := fun heq => by
      rw [heq, Function.update_self] at hscheduled'
      cases hscheduled'
    rw [hother v hne] at hscheduled'
    refine (h.waits v hv hscheduled').imp_left fun hmem => ?_
    exact (Multiset.mem_cons.mp hmem).resolve_left hne
  · by_cases hne : v = k
    · exact ⟨w, by rw [Function.update_self, hne]; exact List.mem_singleton.mpr rfl⟩
    · rw [hother v hne] at hv
      obtain ⟨u, hu⟩ := h.worked v hv
      have huw : u ≠ w := fun heq => by
        rw [heq, hnone] at hu
        cases hu
      exact ⟨u, by rw [Function.update_of_ne huw]; exact hu⟩

/-- A worker goes on after a task. -/
theorem Places.leave (h : Places count held pending running task) (hw : running w = [k])
    (hleft : hasLeft (task k) = true) :
    Places count held pending (Function.update running w []) task := by
  refine ⟨h.fresh, h.handed, h.once, h.queued, h.nodup, fun u v hv => ?_, h.waits, fun v hv => ?_⟩
  · by_cases hu : u = w
    · rw [hu, Function.update_self] at hv
      cases hv
    · rw [Function.update_of_ne hu] at hv
      exact h.called u v hv
  · obtain ⟨u, hu⟩ := h.worked v hv
    have huw : u ≠ w := fun heq => by
      rw [heq, hw, List.mem_singleton] at hu
      subst hu
      -- `operator()` has been left, so it is not executed any more
      cases htask : task v with
      | done | threw => rw [htask] at hv; cases hv
      | _ => rw [htask] at hleft; cases hleft
    exact ⟨u, by rw [Function.update_of_ne huw]; exact hu⟩

/-- A task that is being executed goes on. -/
theorem Places.move (h : Places count held pending running task) (hk : k ∈ running w)
    {pc : TaskPc ρ} (hpc : Scheduled.executing pc = true ∨ hasLeft pc = true) :
    Places count held pending running (Function.update task k pc) := by
  have hscheduled := h.not_scheduled hk
  have hother : ∀ v, task v = .scheduled → Function.update task k pc v = task v :=
    fun v hv => Function.update_of_ne (fun heq => hscheduled (by rw [← heq, hv])) _ _
  refine ⟨fun v hv => ?_, fun j v hv => ?_, h.once, fun v hv => ?_, h.nodup, fun u v hv => ?_,
    fun v hv hnone => ?_, fun v hv => ?_⟩
  · rw [hother v (h.fresh v hv)]
    exact h.fresh v hv
  · rw [hother v (h.handed j v hv).2.1]
    exact h.handed j v hv
  · rw [hother v (h.queued v hv).2]
    exact h.queued v hv
  · by_cases hv' : v = k
    · rw [hv', Function.update_self]
      exact hpc
    · rw [Function.update_of_ne hv']
      exact h.called u v hv
  · by_cases hv' : v = k
    · rw [hv', Function.update_self] at hnone
      rw [hnone] at hpc
      rcases hpc with h | h <;> cases h
    · rw [Function.update_of_ne hv'] at hnone
      exact h.waits v hv hnone
  · by_cases hv' : v = k
    · exact ⟨w, hv' ▸ hk⟩
    · rw [Function.update_of_ne hv'] at hv
      exact h.worked v hv

end

/-! ## Every run -/

section
variable [DecidableEq ι] {policy : SchedulingPolicy σ Nat} {function memory : Nat → Bool}
  {s s' : State σ ρ ι} {a : Act ρ ι} {k : Nat}

/-- Where the tasks are in a state of the system. -/
def PlaceInv (policy : SchedulingPolicy σ Nat) (s : State σ ρ ι) : Prop :=
  Places s.count (held s.pool) (policy.tasks s.pool.scheduler) (running s.pool)
    fun k => (s.future k).task

omit [DecidableEq ι] in
theorem placeInv_init : PlaceInv policy (State.init policy memory : State σ ρ ι) := by
  show Places 0 (fun _ => none) (policy.tasks policy.clear) (fun _ => []) fun _ => .scheduled
  rw [policy.tasks_clear]
  exact {
    fresh := fun _ _ => rfl
    handed := fun _ _ h => absurd h (by simp)
    once := fun _ _ _ h => absurd h (by simp)
    queued := fun k h => absurd h (Multiset.notMem_zero k)
    nodup := Multiset.nodup_zero
    called := fun _ _ h => absurd h List.not_mem_nil
    waits := fun _ h => absurd h (Nat.not_lt_zero _)
    worked := fun _ h => absurd h (by simp [executing]) }

omit [DecidableEq ι] in
theorem running_of_worker {s : PoolState σ Nat ι} {w : Nat}
    (hw : s.workers[w]? = some (.running k)) : running s w = [k] := by
  rw [running, ThreadPool.runningOf, hw]
  rfl

omit [DecidableEq ι] in
theorem exists_running_of_runs (h : s.runs k = true) : ∃ w, k ∈ running s.pool w := by
  obtain ⟨pc, hmem, hk⟩ := List.any_eq_true.mp h
  obtain ⟨w, hw⟩ := List.getElem?_of_mem hmem
  refine ⟨w, ?_⟩
  rw [running, ThreadPool.runningOf, hw]
  exact List.contains_iff_mem.mp hk

omit [DecidableEq ι] in
theorem runs_of_running {w : Nat} (h : k ∈ running s.pool w) : s.runs k = true := by
  rw [running, ThreadPool.runningOf] at h
  cases hw : s.pool.workers[w]? with
  | none => rw [hw] at h; cases h
  | some pc =>
    rw [hw] at h
    exact List.any_eq_true.mpr ⟨pc, List.mem_of_getElem? hw, List.contains_iff_mem.mpr h⟩

omit [DecidableEq ι] in
/-- A worker goes on only after a task that has been left. -/
theorem hasLeft_of_mayStep {b : ThreadPool.Act Nat ι} {w : Nat} (hmay : s.mayStep b = true)
    (hb : (∃ created, b = .worker w created) ∨ b = .throws w)
    (hw : s.pool.workers[w]? = some (.running k)) : hasLeft (s.future k).task = true := by
  rcases hb with ⟨created, rfl⟩ | rfl
  all_goals
    simp only [State.mayStep, hw] at hmay
    split at hmay
    next htask => rw [htask]; rfl
    next => cases hmay

/-- A step of a future leaves the task alone, or it is the task's. -/
theorem future_task {f : Bool} {t t' : FutureImpl ρ ι} {b : Future.Act ρ ι}
    (hmay : s.mayMove k b = true) (h : Future.step f t b = some t') :
    t'.task = t.task ∨
      s.runs k = true ∧
        (t.task = .scheduled ∨ executing t'.task = true ∨ hasLeft t'.task = true) := by
  cases b with
  | task =>
    refine .inr ⟨hmay, ?_⟩
    have hmove := Future.taskStep_move h
    generalize Future.events t .task = es at hmove
    cases hmove with
    | fetched htask | dropped htask => exact .inl htask
    | noFunction => exact .inr (.inr rfl)
    | finish => exact .inr (.inr rfl)
    | threw => exact .inr (.inr rfl)
    | _ => exact .inr (.inl rfl)
  | returns r =>
    simp only [Future.step, Future.functionStep] at h
    split at h
    next => cases h; exact .inr ⟨hmay, .inr (.inl rfl)⟩
    next => cases h
  | throws =>
    simp only [Future.step, Future.functionStep] at h
    split at h
    next => cases h; exact .inr ⟨hmay, .inr (.inr rfl)⟩
    next => cases h
  | drop => cases hmay
  | call i call => exact .inl (Future.callStep_move h).function.2.2.1
  | user i => exact .inl (Future.userStep_move h).function.2.2.1
  | timeout i =>
    simp only [Future.step, Future.timeoutStep] at h
    split at h
    next => cases h; exact .inl rfl
    next => cases h
  | spurious i => cases h; exact .inl rfl

/-- The pool takes a step. -/
theorem poolStep_placeInv {b : ThreadPool.Act Nat ι} {pool : PoolState σ Nat ι}
    (hinv : PlaceInv policy s) (hmay : s.mayStep b = true)
    (h : ThreadPool.step policy s.pool b = some pool) :
    Places s.count (held pool) (policy.tasks pool.scheduler) (running pool)
      fun k => (fate policy s.pool b k).place (s.future k).task := by
  have htasks : (∀ k, fate policy s.pool b k = .kept) →
      (fun k => (fate policy s.pool b k).place (s.future k).task) = fun k => (s.future k).task := by
    intro hfate
    funext k
    rw [hfate, Fate.place]
  have hupdate : ∀ {k : Nat} {fate' : Fate} {pc : TaskPc ρ}, (∀ pc', fate'.place pc' = pc) →
      (∀ v, fate policy s.pool b v = if k = v then fate' else .kept) →
      (fun k => (fate policy s.pool b k).place (s.future k).task)
        = Function.update (fun k => (s.future k).task) k pc := by
    intro k fate' pc hpc hfate
    funext v
    by_cases hv : k = v
    · subst hv
      rw [hfate, if_pos rfl, hpc, Function.update_self]
    · rw [hfate, if_neg hv, Function.update_of_ne (Ne.symm hv), Fate.place]
  unfold PlaceInv at hinv
  cases step_handled h with
  | kept hheld hscheduler hrunning hfate =>
    rw [hheld, hscheduler, hrunning, htasks hfate]
    exact hinv
  | handed ha => rw [ha] at hmay; cases hmay
  | refused htask hheld hscheduler hrunning hfate =>
    rw [hheld, hscheduler, hrunning, hupdate (fun _ => rfl) hfate]
    exact hinv.refuse htask
  | pushed htask hheld hscheduler hrunning hfate =>
    rw [hheld, hscheduler, hrunning, htasks hfate]
    exact hinv.push htask
  | cleared hheld hscheduler hrunning hfate =>
    have hdropped : (fun k => (fate policy s.pool b k).place (s.future k).task)
        = fun k => if k ∈ policy.tasks s.pool.scheduler then .dropped else (s.future k).task := by
      funext k
      rw [hfate]
      split <;> rfl
    rw [hheld, hscheduler, hrunning, hdropped]
    exact hinv.clear
  | taken hheld hnone hscheduler hrunning hfate =>
    rw [hheld, hrunning, hupdate (fun _ => rfl) hfate]
    rw [hscheduler] at hinv
    exact hinv.take hnone
  | ended ha hheld hscheduler hw hrunning hfate =>
    rw [hheld, hscheduler, hrunning, htasks hfate]
    exact hinv.leave (running_of_worker hw) (hasLeft_of_mayStep hmay ha hw)

theorem step_placeInv (hinv : PlaceInv policy s) (h : step policy function s a = some s') :
    PlaceInv policy s' := by
  cases a with
  | schedule i =>
    obtain ⟨pool, hpool, rfl⟩ := Option.map_eq_some_iff.mp h
    simp only [ThreadPool.step, ThreadPool.callStep] at hpool
    split at hpool
    next hidle =>
      cases hpool
      unfold PlaceInv
      rw [@held_update _ _ _ s.pool _ i _ (some s.count) rfl rfl]
      exact Places.hand hinv (by rw [held, hidle]; rfl)
    next => cases hpool
  | pool b =>
    simp only [step] at h
    split at h
    next hmay =>
      obtain ⟨pool, hpool, rfl⟩ := Option.map_eq_some_iff.mp h
      exact poolStep_placeInv hinv hmay hpool
    next => cases h
  | future k b =>
    simp only [step] at h
    split at h
    next hmay =>
      obtain ⟨t, ht, rfl⟩ := Option.map_eq_some_iff.mp h
      have htasks : (fun v => (Function.update s.future k t v).task)
          = Function.update (fun v => (s.future v).task) k t.task := by
        funext v
        by_cases hv : v = k
        · subst hv
          rw [Function.update_self, Function.update_self]
        · rw [Function.update_of_ne hv, Function.update_of_ne hv]
      unfold PlaceInv
      rw [htasks]
      rcases future_task hmay ht with hsame | ⟨hruns, hplace⟩
      · rw [hsame, Function.update_eq_self]
        exact hinv
      · obtain ⟨w, hw⟩ := exists_running_of_runs hruns
        exact Places.move hinv hw (hplace.resolve_left (Places.not_scheduled hinv hw))
    next => cases h

theorem reachable_placeInv (h : Reachable (step policy function) (State.init policy memory) s) :
    PlaceInv policy s :=
  h.invariant placeInv_init fun _ _ _ => step_placeInv

/-- A step of the system is a step of the pool or leaves it alone. -/
theorem step_pool (h : step policy function s a = some s') :
    s'.pool = s.pool ∨ ∃ b, ThreadPool.step policy s.pool b = some s'.pool := by
  cases a with
  | schedule i =>
    obtain ⟨pool, hpool, rfl⟩ := Option.map_eq_some_iff.mp h
    exact .inr ⟨_, hpool⟩
  | pool b =>
    simp only [step] at h
    split at h
    next =>
      obtain ⟨pool, hpool, rfl⟩ := Option.map_eq_some_iff.mp h
      exact .inr ⟨_, hpool⟩
    next => cases h
  | future k b =>
    simp only [step] at h
    split at h
    next => obtain ⟨t, -, rfl⟩ := Option.map_eq_some_iff.mp h; exact .inl rfl
    next => cases h

/-- A task that is called or destroyed had not been called before. -/
theorem fate_kept_or {b : ThreadPool.Act Nat ι} {pool : PoolState σ Nat ι}
    (hinv : PlaceInv policy s) (hmay : s.mayStep b = true)
    (h : ThreadPool.step policy s.pool b = some pool) (k : Nat) :
    fate policy s.pool b k = .kept ∨ (s.future k).task = .scheduled := by
  cases step_handled h with
  | kept _ _ _ hfate | pushed _ _ _ _ hfate | ended _ _ _ _ _ hfate => exact .inl (hfate k)
  | handed ha => rw [ha] at hmay; cases hmay
  | @refused i task htask _ _ _ hfate =>
    rw [hfate]
    by_cases hk : task = k
    · exact .inr (hinv.handed i k (hk ▸ htask)).2.1
    · exact .inl (if_neg hk)
  | cleared _ _ _ hfate =>
    rw [hfate]
    by_cases hk : k ∈ policy.tasks s.pool.scheduler
    · exact .inr (hinv.queued k hk).2
    · exact .inl (if_neg hk)
  | @taken w task _ _ hscheduler _ hfate =>
    rw [hfate]
    by_cases hk : task = k
    · refine .inr (hinv.queued k ?_).2
      rw [hscheduler, hk]
      exact Multiset.mem_cons_self k _
    · exact .inl (if_neg hk)

/-- A step of the system is a step of a future or leaves it alone. -/
theorem step_future (hinv : PlaceInv policy s) (h : step policy function s a = some s') (k : Nat) :
    s'.future k = s.future k ∨
      ∃ b, Future.step (function k) (s.future k) b = some (s'.future k) := by
  cases a with
  | schedule i =>
    obtain ⟨pool, -, rfl⟩ := Option.map_eq_some_iff.mp h
    exact .inl rfl
  | pool b =>
    simp only [step] at h
    split at h
    next hmay =>
      obtain ⟨pool, hpool, rfl⟩ := Option.map_eq_some_iff.mp h
      show { s.future k with task := (fate policy s.pool b k).place (s.future k).task }
          = s.future k ∨ ∃ b', Future.step (function k) (s.future k) b'
            = some { s.future k with task := (fate policy s.pool b k).place (s.future k).task }
      rcases fate_kept_or hinv hmay hpool k with hkept | htask
      · rw [hkept]
        exact .inl rfl
      · cases fate policy s.pool b k with
        | kept => exact .inl rfl
        | called =>
          exact .inr ⟨.task, by simp only [Future.step, Future.taskStep, htask, Fate.place]⟩
        | destroyed =>
          exact .inr ⟨.drop, by simp only [Future.step, Future.dropStep, htask, Fate.place]⟩
    next => cases h
  | future v b =>
    simp only [step] at h
    split at h
    next =>
      obtain ⟨t, ht, rfl⟩ := Option.map_eq_some_iff.mp h
      show Function.update s.future v t k = s.future k ∨
        ∃ b', Future.step (function k) (s.future k) b' = some (Function.update s.future v t k)
      by_cases hk : k = v
      · subst hk
        exact .inr ⟨b, by rw [Function.update_self]; exact ht⟩
      · exact .inl (Function.update_of_ne hk _ _)
    next => cases h

/-- The pool's part of a run is a run of the pool. -/
theorem pool_reachable (h : Reachable (step policy function) (State.init policy memory) s) :
    Reachable (ThreadPool.step policy) (PoolState.init policy) s.pool := by
  refine @Reachable.invariant _ _ _ (fun s : State σ ρ ι =>
    Reachable (ThreadPool.step policy) (PoolState.init policy) s.pool) _ _ h (.refl _ _) ?_
  intro s a s' hreach hstep
  rcases step_pool hstep with hsame | ⟨b, hb⟩
  · rw [hsame]
    exact hreach
  · exact hreach.step hb

/-- The part of each future is a run of that future. -/
theorem future_reachable (h : Reachable (step policy function) (State.init policy memory) s)
    (k : Nat) : Reachable (Future.step (function k)) (FutureImpl.init (memory k)) (s.future k) := by
  refine @Reachable.invariant_along _ _ _ (fun s : State σ ρ ι =>
    Reachable (Future.step (function k)) (FutureImpl.init (memory k)) (s.future k)) _ _ h
    (.refl _ _) ?_
  intro s a s' hs hreach hstep
  rcases step_future (reachable_placeInv hs) hstep k with hsame | ⟨b, hb⟩
  · rw [hsame]
    exact hreach
  · exact hreach.step hb

end

end Satf.Scheduled
