import Satf.Scheduled.System

/-!
# Who waits for a scheduled function

What a thread can rely on that holds a future of a function it has scheduled.

> `stuck_futures`: where no thread can take a step, a future that is not ready
> belongs to a function that threw, was dropped by the pool, is empty, or was
> cancelled; or the task is still pending and the pool has no worker left.

> `wait_settles`: once `wait(0)` has let a caller through, and nobody is
> scheduling, every future is ready, or its function threw, was dropped, is
> empty, or was cancelled.

No notification is lost between the pool's monitor and those of the futures.
-/

namespace Satf.Scheduled

open Satf.Lib
open Satf.ThreadPool (SchedulingPolicy PoolState fifoScheduler)
open Satf.Future (FutureImpl TaskPc)

variable {σ ρ ι : Type} [DecidableEq ι] {policy : SchedulingPolicy σ Nat}
  {function memory : Nat → Bool} {s s' : State σ ρ ι} {i : ι} {k w : Nat}

/-- Why a future that is not ready never will be, once its task is over. -/
def Failed (hasFunction : Bool) (s : FutureImpl ρ ι) : Prop :=
  s.task = .threw ∨ s.task = .dropped ∨
    s.task = .done ∧ (hasFunction = false ∨ s.isCancelled = true)

omit [DecidableEq ι] in
/-- While no worker executes a task, each one has not been called or is over. -/
theorem scheduled_or_over (hplaces : PlaceInv policy s) (hnone : ∀ w, running s.pool w = [])
    (k : Nat) : (s.future k).task = .scheduled ∨
      (s.future k).task = .done ∨ (s.future k).task = .threw ∨ (s.future k).task = .dropped := by
  by_cases hexecuting : executing (s.future k).task = true
  · obtain ⟨w, hw⟩ := hplaces.worked k hexecuting
    rw [hnone w] at hw
    cases hw
  · cases htask : (s.future k).task with
    | scheduled | done | threw | dropped => simp
    | _ => rw [htask] at hexecuting; exact absurd rfl hexecuting

/-! ## Where no thread can move -/

/-- Steps that a thread takes of its own. -/
def Act.ofThread : Act ρ ι → Prop
  | .schedule _ => False
  | .pool a => a.ofThread
  | .future _ a => a.ofThread

theorem stuck_users (hstuck : Stuck (step policy function) Act.ofThread s) (hk : k < s.count)
    (i : ι) : Future.userStep (s.future k) i = none := by
  have h := hstuck (.future k (.user i)) trivial
  have hmay : s.mayMove k (.user i) = true := decide_eq_true hk
  simp only [step, hmay, if_true] at h
  exact Option.map_eq_none_iff.mp h

/-- No worker is executing a task. -/
theorem stuck_not_running (hreach : Reachable (step policy function) (State.init policy memory) s)
    (hstuck : Stuck (step policy function) Act.ofThread s) :
    s.pool.workers[w]? ≠ some (.running k) := by
  intro hw
  have hplaces := reachable_placeInv hreach
  have hmem : k ∈ running s.pool w := by
    rw [running_of_worker hw]
    exact List.mem_singleton.mpr rfl
  have hk : k < s.count := by
    by_contra hge
    exact hplaces.not_scheduled hmem (hplaces.fresh k (Nat.le_of_not_lt hge))
  have hruns := runs_of_running hmem
  -- the task is not over, for then the worker could go on
  have hworker : hasLeft (s.future k).task = false := by
    cases htask : (s.future k).task with
    | done =>
      have h := hstuck (.pool (.worker w true)) trivial
      simp [step, State.mayStep, hw, htask, ThreadPool.step, ThreadPool.workerStep] at h
    | threw =>
      have h := hstuck (.pool (.throws w)) trivial
      simp [step, State.mayStep, hw, htask, ThreadPool.step, ThreadPool.throwStep] at h
    | _ => rfl
  -- so it can go on itself
  have hfuture : Stuck (Future.step (function k)) Future.Act.ofThread (s.future k) := by
    intro b hb
    have h := hstuck (.future k b) hb
    have hmay : s.mayMove k b = true := by
      cases b with
      | task | returns | throws => exact hruns
      | user => exact decide_eq_true hk
      | _ => exact hb.elim
    simp only [step, hmay, if_true] at h
    exact Option.map_eq_none_iff.mp h
  have hcalled := (hplaces.called w k hmem).resolve_right (by simp [hworker])
  rcases Future.stuck_over (Future.reachable_futureInv (future_reachable hreach k)) hfuture
    with h | h | h
  all_goals rw [h] at hcalled; cases hcalled

/-- So the pool cannot move either. -/
theorem stuck_pool (hreach : Reachable (step policy function) (State.init policy memory) s)
    (hstuck : Stuck (step policy function) Act.ofThread s) :
    Stuck (ThreadPool.step policy) ThreadPool.Act.ofThread s.pool := by
  intro b hb
  have h := hstuck (.pool b) hb
  have hmay : s.mayStep b = true := by
    cases b with
    | caller => rfl
    | worker w | throws w =>
      cases hw : s.pool.workers[w]? with
      | none => simp only [State.mayStep, hw]
      | some pc =>
        cases pc with
        | running k => exact absurd hw (stuck_not_running hreach hstuck)
        | _ => simp only [State.mayStep, hw]
    | _ => exact hb.elim
  simp only [step, hmay, if_true] at h
  exact Option.map_eq_none_iff.mp h

/-- Nobody is scheduling. -/
theorem stuck_held (hreach : Reachable (ThreadPool.step policy) (PoolState.init policy) s.pool)
    (hstuck : Stuck (ThreadPool.step policy) ThreadPool.Act.ofThread s.pool) (i : ι) :
    held s.pool i = none := by
  have hjoin := ThreadPool.reachable_joinInv hreach
  have hfree := ThreadPool.stuck_free hstuck (ThreadPool.reachable_lockInv hreach) hjoin
  rcases ThreadPool.stuck_caller hstuck hjoin i with ⟨hheld, -⟩ | h | ⟨timed, threshold, h⟩ | h
  · exact absurd hfree hheld
  all_goals rw [held, h]; rfl

/-- **Who waits for ever for a scheduled function.** Functions come to their end,
waiting neither for the pool nor for a future. In every reachable state in
which no thread can take a step: each holder of a future has returned from its
calls, or waits for a future that is not ready; and then the function threw,
was dropped by the pool, is empty or the future was cancelled, or the task is
still pending and every worker of the pool has ended. -/
theorem stuck_futures (hreach : Reachable (step policy function) (State.init policy memory) s)
    (hstuck : Stuck (step policy function) Act.ofThread s) (hk : k < s.count) :
    (∀ i, (s.future k).user i = .idle ∨
      (∃ call, (s.future k).user i = .blocked call false) ∧ (s.future k).ready = false) ∧
    ((s.future k).ready = true ∨ Failed (function k) (s.future k) ∨
      k ∈ policy.tasks s.pool.scheduler ∧ ∀ pc ∈ s.pool.workers, pc = .finished) := by
  have hplaces := reachable_placeInv hreach
  have hpool := pool_reachable hreach
  have hfuture := future_reachable hreach k
  have hrest := stuck_pool hreach hstuck
  have hworkers := ThreadPool.stuck_workers hpool hrest
  have hnone : ∀ w, running s.pool w = [] := by
    intro w
    rw [running, ThreadPool.runningOf]
    cases hw : s.pool.workers[w]? with
    | none => rfl
    | some pc => rcases hworkers pc (List.mem_of_getElem? hw) with rfl | rfl <;> rfl
  have hplace := scheduled_or_over hplaces hnone k
  have hunlocked : (s.future k).task.locked = false := by
    rcases hplace with h | h | h | h <;> rw [h] <;> rfl
  refine ⟨Future.users_wait (Future.reachable_futureInv hfuture) hunlocked
    (stuck_users hstuck hk), ?_⟩
  cases hready : (s.future k).ready with
  | true => exact .inl rfl
  | false =>
    right
    rcases hplace with htask | hover
    · -- nobody holds the task, so it is pending, and no worker is left for it
      have hpending : k ∈ policy.tasks s.pool.scheduler := by
        rcases hplaces.waits k hk htask with h | ⟨i, hi⟩
        · exact h
        · rw [stuck_held hpool hrest i] at hi
          cases hi
      refine .inr ⟨hpending, fun pc hpc => (hworkers pc hpc).resolve_left fun hasleep => ?_⟩
      have htasks := (ThreadPool.stuck_done hpool hrest (hasleep ▸ hpc)).1
      rw [htasks] at hpending
      exact Multiset.notMem_zero k hpending
    · exact .inl (Future.reason_of_over hfuture hready hover)

/-- One worker: a thread schedules a function, another one calls `get` and waits,
the function returns 7, the worker goes to sleep, and the value is got. -/
def getScheduled : List (Act Nat Bool) :=
  let caller := .pool (.caller false none true)
  let worker := .pool (.worker 0 true)
  [.pool (.call false (.resize 1)), caller, caller, caller, caller] ++
    [.schedule false, caller, caller] ++
    [.future 0 (.call true (.wait .get)), .future 0 (.user true), .future 0 (.user true)] ++
    [worker, worker, worker] ++
    List.replicate 3 (.future 0 .task) ++ [.future 0 (.returns 7)] ++
    List.replicate 8 (.future 0 .task) ++
    [worker, worker, worker, worker] ++
    List.replicate 4 (.future 0 (.user true))

/-- The theorem where that run ends: nobody waits, and the future is ready. -/
theorem stuck_futures_getScheduled :
    ∃ s, run (step fifoScheduler fun _ => true) (State.init fifoScheduler fun _ => true)
        getScheduled = some s ∧ s.count = 1 ∧
      (∀ i, (s.future 0).user i = .idle ∨
        (∃ call, (s.future 0).user i = .blocked call false) ∧ (s.future 0).ready = false) ∧
      ((s.future 0).ready = true ∨ Failed true (s.future 0) ∨
        0 ∈ fifoScheduler.tasks s.pool.scheduler ∧ ∀ pc ∈ s.pool.workers, pc = .finished) := by
  have hrun : (run (step fifoScheduler fun _ => true) (State.init fifoScheduler fun _ => true)
      getScheduled).map (fun s => (s.count, s.pool.workers, s.pool.caller false, s.pool.caller true,
        (s.future 0).user false, (s.future 0).user true))
        = some (1, [.blocked false], .idle, .idle, .idle, .idle) := rfl
  obtain ⟨s, hs, hfields⟩ := Option.map_eq_some_iff.mp hrun
  obtain ⟨hcount, hfields⟩ := Prod.mk.inj hfields
  obtain ⟨hworkers, hfields⟩ := Prod.mk.inj hfields
  obtain ⟨hfalse, hfields⟩ := Prod.mk.inj hfields
  obtain ⟨htrue, hfields⟩ := Prod.mk.inj hfields
  obtain ⟨hufalse, hutrue⟩ := Prod.mk.inj hfields
  have hpool : Stuck (ThreadPool.step fifoScheduler) ThreadPool.Act.ofThread s.pool := by
    refine ThreadPool.rest_of_idle (fun i => by cases i <;> assumption) fun pc hpc => .inl ?_
    rw [hworkers] at hpc
    exact List.mem_singleton.mp hpc
  have hstuck : Stuck (step fifoScheduler fun _ => true) Act.ofThread s := by
    have hruns : ∀ k, s.runs k = false := fun k => by
      rw [State.runs, hworkers]
      rfl
    intro a ha
    cases a with
    | schedule => exact ha.elim
    | pool b => simp only [step, hpool b ha, Option.map_none, ite_self]
    | future k b =>
      cases b with
      | task | returns | throws => simp [step, State.mayMove, hruns]
      | user i =>
        have huser : ∀ j, Future.userStep (s.future 0) j = none := fun j => by
          cases j <;> simp only [Future.userStep, hufalse, hutrue]
        by_cases hk : k = 0
        · simp [step, hk, Future.step, huser]
        · have hnot : ¬k < 1 := by omega
          simp [step, State.mayMove, hcount, hnot]
      | _ => exact ha.elim
  have hk : 0 < s.count := by rw [hcount]; exact Nat.one_pos
  exact ⟨s, hs, hcount, stuck_futures ⟨_, hs⟩ hstuck hk⟩

/-! ## A barrier -/

/-- **`wait(0)` settles every future.** When a caller leaves the loop of
`wait(0)` while nobody is scheduling, then for each function scheduled so far
the future is ready, or the function threw, was dropped by the pool, is empty
or the future was cancelled. -/
theorem wait_settles (hreach : Reachable (step policy function) (State.init policy memory) s)
    {timed created : Bool} {chosen : Option Nat} (hcaller : s.pool.caller i = .waitTest timed 0)
    (hstep : step policy function s (.pool (.caller i chosen created)) = some s')
    (hidle : s'.pool.caller i = .idle) (hnobody : ∀ j, held s.pool j = none) :
    ∀ k < s'.count, (s'.future k).ready = true ∨ Failed (function k) (s'.future k) := by
  have hplaces := reachable_placeInv hreach
  have hnext := hreach.step hstep
  simp only [step, State.mayStep, if_true] at hstep
  obtain ⟨pool, hpool, rfl⟩ := Option.map_eq_some_iff.mp hstep
  obtain ⟨hle, rfl⟩ := ThreadPool.waited_le (pool_reachable hreach) hcaller hpool hidle
  obtain ⟨hrunning, htasks⟩ : s.pool.workers.countP ThreadPool.WorkerPc.isRunning = 0 ∧
      (policy.tasks s.pool.scheduler).card = 0 := by omega
  have hnone : ∀ w, running s.pool w = [] := by
    intro w
    rw [running, ThreadPool.runningOf]
    cases hw : s.pool.workers[w]? with
    | none => rfl
    | some pc =>
      have hpc := List.countP_eq_zero.mp hrunning pc (List.mem_of_getElem? hw)
      cases pc with
      | running => exact absurd rfl hpc
      | _ => rfl
  intro k hk
  have hplaces' := reachable_placeInv hnext
  have hover : ∀ w, running (s.pool.unlockCaller i .idle) w = [] := hnone
  rcases scheduled_or_over hplaces' hover k with htask | hover
  · -- a task that has not been called is pending or held
    rcases hplaces'.waits k hk htask with hpending | ⟨j, hj⟩
    · have hzero := Multiset.card_eq_zero.mp htasks
      exact absurd hpending (by show k ∉ policy.tasks s.pool.scheduler; simp [hzero])
    · have hj' : held s.pool j = some k := by
        rw [← hj]
        exact (congrFun (held_same (i := i) rfl (by rw [held, hcaller]; rfl)) j).symm
      rw [hnobody j] at hj'
      cases hj'
  · refine (Bool.eq_false_or_eq_true _).imp_right fun hready => ?_
    exact Future.reason_of_over (future_reachable hnext k) hready hover

/-- The theorem after that run. -/
theorem wait_settles_getScheduled :
    ∃ s s' : State (List Nat) Nat Bool,
      run (step fifoScheduler fun _ => true) (State.init fifoScheduler fun _ => true)
        (getScheduled ++ [.pool (.call false (.wait 0)), .pool (.caller false none true)])
          = some s ∧
      step fifoScheduler (fun _ => true) s (.pool (.caller false none true)) = some s' ∧
      s'.pool.caller false = .idle ∧
      ∀ k < s'.count, (s'.future k).ready = true ∨ Failed true (s'.future k) := by
  have hrun : (run (step fifoScheduler fun _ => true)
      (State.init fifoScheduler fun _ => true : State (List Nat) Nat Bool)
      (getScheduled ++ [.pool (.call false (.wait 0)), .pool (.caller false none true)])).map
      (fun s => (s.pool.caller false, s.pool.caller true,
        (step fifoScheduler (fun _ => true) s (.pool (.caller false none true))).map
          fun s' => s'.pool.caller false))
      = some (.waitTest false 0, .idle, some .idle) := rfl
  obtain ⟨s, hs, hfields⟩ := Option.map_eq_some_iff.mp hrun
  obtain ⟨hcaller, hfields⟩ := Prod.mk.inj hfields
  obtain ⟨hother, hnext⟩ := Prod.mk.inj hfields
  obtain ⟨s', hstep, hidle⟩ := Option.map_eq_some_iff.mp hnext
  have hnobody : ∀ j, held s.pool j = none := by
    intro j
    cases j with
    | false => rw [held, hcaller]; rfl
    | true => rw [held, hother]; rfl
  exact ⟨s, s', hs, hstep, hidle, wait_settles ⟨_, hs⟩ hcaller hstep hidle hnobody⟩

end Satf.Scheduled
