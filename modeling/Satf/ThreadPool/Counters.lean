import Satf.Lib.Count
import Satf.ThreadPool.Core

/-!
# The monitor and the counters

`Locks` says who holds the monitor, from the places of the threads, and
`Counted` what the two counters count. Each has one lemma for each way in which
a thread moves; a step of the pool is one or two of them.

> `counters_exact`: `size()` is the number of workers that have not left,
> `active()` the number of those that are not waiting, and a counter that is
> decremented is not zero.
>
> `wait_returns`: where `wait` returns, no more tasks are running or pending
> than its threshold.
-/

namespace Satf.ThreadPool

open Satf.Lib

variable {σ τ ι : Type} {policy : SchedulingPolicy σ τ} {s s' : PoolState σ τ ι}

/-! ## Places -/

/-- The worker holds the monitor. -/
def WorkerPc.locked : WorkerPc τ → Bool
  | .firstTest | .loopTest | .destructing | .dying | .replacing => true
  | _ => false

/-- The worker has not left the count. -/
def WorkerPc.alive : WorkerPc τ → Bool
  | .replacing | .exiting | .finished => false
  | _ => true

/-- The worker is counted as active. -/
def WorkerPc.active : WorkerPc τ → Bool
  | .blocked _ => false
  | pc => pc.alive

/-- The caller holds the monitor. -/
def CallerPc.locked : CallerPc τ → Bool
  | .scheduling _ | .clearing | .waitTest .. | .resizeStart _ | .resizing | .terminating _
  | .terminateTest | .joining _ => true
  | _ => false

@[simp] theorem WorkerPc.notified_locked (pc : WorkerPc τ) : pc.notified.locked = pc.locked := by
  cases pc <;> rfl

@[simp] theorem WorkerPc.notified_alive (pc : WorkerPc τ) : pc.notified.alive = pc.alive := by
  cases pc <;> rfl

@[simp] theorem WorkerPc.notified_active (pc : WorkerPc τ) : pc.notified.active = pc.active := by
  cases pc <;> rfl

@[simp] theorem CallerPc.notified_locked (pc : CallerPc τ) : pc.notified.locked = pc.locked := by
  cases pc <;> rfl

theorem CallerPc.afterLock_locked {pc pc' : CallerPc τ} (h : pc.afterLock = some pc') :
    pc.locked = false ∧ pc'.locked = true := by
  cases pc with
  | waitBlocked timed threshold notified => cases notified <;> cases h; exact ⟨rfl, rfl⟩
  | terminateBlocked notified => cases notified <;> cases h; exact ⟨rfl, rfl⟩
  | _ => cases h <;> exact ⟨rfl, rfl⟩

theorem WorkerPc.afterLock_same {pc pc' : WorkerPc τ} (h : pc.afterLock = some pc') :
    pc.locked = false ∧ pc'.locked = true ∧ pc.alive = true ∧ pc'.alive = true ∧
      pc.active = true ∧ pc'.active = true := by
  cases pc with
  | fetch | destruct | died => cases h; exact ⟨rfl, rfl, rfl, rfl, rfl, rfl⟩
  | _ => cases h

/-! ## The monitor -/

/-- The monitor is held by the one thread that is in a place that holds it. -/
structure Locks (monitor : Option (Holder ι)) (workers : List (WorkerPc τ))
    (caller : ι → CallerPc τ) : Prop where
  worker : ∀ w pc, workers[w]? = some pc → (pc.locked = true ↔ monitor = some (.worker w))
  caller : ∀ i, (caller i).locked = true ↔ monitor = some (.caller i)
  held : ∀ w, monitor = some (.worker w) → w < workers.length

section
variable {monitor : Option (Holder ι)} {workers : List (WorkerPc τ)} {caller : ι → CallerPc τ}
  {w : Nat} {pc pc' : WorkerPc τ}

theorem Locks.notifyAllTasks (h : Locks monitor workers caller) :
    Locks monitor (workers.map WorkerPc.notified) caller where
  worker := by
    intro w pc hw
    rw [List.getElem?_map] at hw
    obtain ⟨pc', hw', rfl⟩ := Option.map_eq_some_iff.mp hw
    rw [WorkerPc.notified_locked]
    exact h.worker w pc' hw'
  caller := h.caller
  held := fun w hw => by rw [List.length_map]; exact h.held w hw

theorem Locks.notifyAllIdle (h : Locks monitor workers caller) :
    Locks monitor workers fun i => (caller i).notified where
  worker := h.worker
  caller := fun i => by rw [CallerPc.notified_locked]; exact h.caller i
  held := h.held

/-- A worker moves without touching the monitor. -/
theorem Locks.workerAt (h : Locks monitor workers caller) (hw : workers[w]? = some pc)
    (hlocked : pc'.locked = pc.locked) : Locks monitor (workers.set w pc') caller where
  worker := forall_set h.worker (by rw [hlocked]; exact h.worker w pc hw)
  caller := h.caller
  held := fun v hv => by rw [List.length_set]; exact h.held v hv

/-- A worker takes the monitor. -/
theorem Locks.workerLocks (h : Locks none workers caller) (hw : workers[w]? = some pc)
    (hlocked : pc'.locked = true) :
    Locks (some (.worker w)) (workers.set w pc') caller where
  worker := by
    intro v pcv hv
    rw [List.getElem?_set] at hv
    split at hv
    next heq =>
      subst heq
      split at hv
      next => cases hv; simp [hlocked]
      next => cases hv
    next hne =>
      rw [h.worker v pcv hv]
      simp [hne]
  caller := fun i => by rw [h.caller i]; simp
  held := by
    intro v hv
    cases hv
    rw [List.length_set]
    exact (List.getElem?_eq_some_iff.mp hw).1

/-- A worker leaves the monitor. -/
theorem Locks.workerUnlocks (h : Locks monitor workers caller) (hw : workers[w]? = some pc)
    (hheld : pc.locked = true) (hlocked : pc'.locked = false) :
    Locks none (workers.set w pc') caller where
  worker := by
    have hmonitor := (h.worker w pc hw).mp hheld
    intro v pcv hv
    rw [List.getElem?_set] at hv
    split at hv
    next heq =>
      subst heq
      split at hv
      next => cases hv; simp [hlocked]
      next => cases hv
    next hne =>
      rw [h.worker v pcv hv, hmonitor]
      simp [hne]
  caller := fun i => by rw [h.caller i, (h.worker w pc hw).mp hheld]; simp
  held := fun v hv => by cases hv

/-- A new worker waits for the monitor. -/
theorem Locks.create (h : Locks monitor workers caller) :
    Locks monitor (workers ++ [.fetch]) caller where
  worker := by
    refine forall_concat (P := fun w (pc : WorkerPc τ) => pc.locked = true ↔ _) h.worker ?_
    exact ⟨fun hlocked => absurd hlocked (by simp [WorkerPc.locked]),
      fun hm => absurd (h.held _ hm) (Nat.lt_irrefl _)⟩
  caller := h.caller
  held := fun v hv => by
    rw [List.length_append]
    exact Nat.lt_of_lt_of_le (h.held v hv) (Nat.le_add_right _ _)

variable [DecidableEq ι] {i : ι} {cpc : CallerPc τ}

/-- A family of facts about the callers, after one of them has moved. -/
theorem forall_update {P : ι → CallerPc τ → Prop} (h : ∀ j, P j (caller j)) (hi : P i cpc) :
    ∀ j, P j (Function.update caller i cpc j) := by
  intro j
  by_cases hj : j = i
  · subst hj
    rw [Function.update_self]
    exact hi
  · rw [Function.update_of_ne hj]
    exact h j

/-- A caller moves without touching the monitor. -/
theorem Locks.callerAt (h : Locks monitor workers caller)
    (hlocked : cpc.locked = (caller i).locked) :
    Locks monitor workers (Function.update caller i cpc) where
  worker := h.worker
  caller := forall_update (P := fun i pc => pc.locked = true ↔ _) h.caller
    (by rw [hlocked]; exact h.caller i)
  held := h.held

/-- A caller takes the monitor. -/
theorem Locks.callerLocks (h : Locks none workers caller) (hlocked : cpc.locked = true) :
    Locks (some (.caller i)) workers (Function.update caller i cpc) where
  worker := fun w pc hw => by rw [h.worker w pc hw]; simp
  caller := by
    intro j
    by_cases hj : j = i
    · subst hj
      simp [hlocked]
    · rw [Function.update_of_ne hj, h.caller j]
      simp [Ne.symm hj]
  held := fun w hw => by cases hw

/-- A caller leaves the monitor. -/
theorem Locks.callerUnlocks (h : Locks monitor workers caller) (hheld : (caller i).locked = true)
    (hlocked : cpc.locked = false) : Locks none workers (Function.update caller i cpc) where
  worker := fun w pc hw => by rw [h.worker w pc hw, (h.caller i).mp hheld]; simp
  caller := by
    have hmonitor := (h.caller i).mp hheld
    intro j
    by_cases hj : j = i
    · subst hj
      simp [hlocked]
    · rw [Function.update_of_ne hj, h.caller j, hmonitor]
      simp [Ne.symm hj]
  held := fun w hw => by cases hw

end

def LockInv (s : PoolState σ τ ι) : Prop := Locks s.monitor s.workers s.caller

theorem LockInv.free (h : LockInv s) (hfree : s.monitor = none) :
    Locks none s.workers s.caller := by
  rw [← hfree]
  exact h

theorem lockInv_init : LockInv (PoolState.init policy : PoolState σ τ ι) where
  worker := fun w pc hw => by cases hw
  caller := fun i => by simp [PoolState.init, CallerPc.locked]
  held := fun w hw => by cases hw

section
variable [DecidableEq ι] {i : ι} {w : Nat} {created : Bool} {es : List (Event τ)} {a : Act τ ι}

theorem CallerMove.locks (h : CallerMove policy s i created s' es)
    (hinv : LockInv s) : LockInv s' := by
  cases h with
  | lock hlock hfree => exact (hinv.free hfree).callerLocks (CallerPc.afterLock_locked hlock).2
  | refused hcaller | push hcaller | cleared hcaller | waitBlock hcaller | waited hcaller
  | resizeRefused hcaller | resized hcaller | terminateBlock hcaller | joined hcaller =>
    exact hinv.callerUnlocks (by rw [hcaller]; rfl) rfl
  | @pushNotify task c w hcaller hpush hasleep =>
    have hnotified : Locks s.monitor (s.workers.set w (.blocked true)) s.caller :=
      hinv.workerAt hasleep rfl
    exact hnotified.callerUnlocks (by rw [hcaller]; rfl) rfl
  | gaveUp hcaller | resizeUp hcaller | startJoin hcaller | join hcaller =>
    exact hinv.callerAt (by rw [hcaller]; rfl)
  | resizeDown hcaller | terminate hcaller =>
    exact hinv.notifyAllTasks.callerUnlocks (by rw [hcaller]; rfl) rfl
  | create => exact hinv.create
  | terminateJoin hcaller => exact hinv.notifyAllTasks.callerAt (by rw [hcaller]; rfl)

omit [DecidableEq ι] in
theorem WorkerMove.locks (h : WorkerMove policy s w created s' es)
    (hinv : LockInv s) : LockInv s' := by
  cases h with
  | lock hw hlock hfree =>
    exact (hinv.free hfree).workerLocks hw (WorkerPc.afterLock_same hlock).2.1
  | wake hw hfree => exact (hinv.free hfree).workerLocks hw rfl
  | leave hw hpc => exact hinv.workerUnlocks hw (by rcases hpc with rfl | rfl <;> rfl) rfl
  | stay hw | returned hw | threw hw | exit hw => exact hinv.workerAt hw rfl
  | sleep hw | destructed hw | diedTerminating hw =>
    exact hinv.notifyAllIdle.workerUnlocks hw rfl rfl
  | take hw | replaced hw => exact hinv.workerUnlocks hw rfl rfl
  | replace hw => exact hinv.notifyAllIdle.workerAt hw rfl
  | create => exact hinv.create

theorem OtherMove.locks (h : OtherMove s a s') (hinv : LockInv s) : LockInv s' := by
  cases h with
  | call hcaller call => exact hinv.callerAt (by rw [hcaller]; cases call <;> rfl)
  | timeout hcaller => exact hinv.callerAt (by rw [hcaller]; rfl)
  | spuriousCaller i => exact hinv.callerAt (CallerPc.notified_locked _)
  | spuriousWorker hw => exact hinv.workerAt hw (WorkerPc.notified_locked _)

theorem reachable_lockInv (h : Reachable (step policy) (PoolState.init policy) s) : LockInv s := by
  refine h.invariant lockInv_init ?_
  intro s a s' hinv hstep
  obtain ⟨i, created, hcaller, -⟩ | ⟨w, created, hworker, -⟩ | ⟨hother, -⟩ := step_cases hstep
  · exact hcaller.locks hinv
  · exact hworker.locks hinv
  · exact hother.locks hinv

end

/-! ## The counters -/

/-- What the two counters count. -/
structure Counted (workerCount activeWorkerCount : Nat) (workers : List (WorkerPc τ)) : Prop where
  count : workerCount = workers.countP WorkerPc.alive
  active : activeWorkerCount = workers.countP WorkerPc.active

section
variable {c a c' a' w : Nat} {workers : List (WorkerPc τ)} {pc pc' : WorkerPc τ}

theorem Counted.notifyAllTasks (h : Counted c a workers) :
    Counted c a (workers.map WorkerPc.notified) where
  count := by
    rw [List.countP_map, h.count]
    exact List.countP_congr fun pc _ => by simp
  active := by
    rw [List.countP_map, h.active]
    exact List.countP_congr fun pc _ => by simp

/-- A worker moves, and the counters with it. -/
theorem Counted.workerAt (h : Counted c a workers) (hw : workers[w]? = some pc)
    (hcount : c' + pc.alive.toNat = c + pc'.alive.toNat)
    (hactive : a' + pc.active.toNat = a + pc'.active.toNat) :
    Counted c' a' (workers.set w pc') := by
  have hc := countP_set_add WorkerPc.alive pc' hw
  have ha := countP_set_add WorkerPc.active pc' hw
  have h₁ := h.count
  have h₂ := h.active
  exact ⟨by omega, by omega⟩

theorem Counted.create (h : Counted c a workers) :
    Counted (c + 1) (a + 1) (workers ++ [.fetch]) where
  count := by rw [List.countP_append, h.count]; rfl
  active := by rw [List.countP_append, h.active]; rfl

theorem Counted.count_pos (h : Counted c a workers) (hw : workers[w]? = some pc)
    (halive : pc.alive = true) : 0 < c :=
  h.count ▸ countP_pos_of_getElem? hw halive

theorem Counted.active_pos (h : Counted c a workers) (hw : workers[w]? = some pc)
    (hactive : pc.active = true) : 0 < a :=
  h.active ▸ countP_pos_of_getElem? hw hactive

/-- A worker leaves the count. -/
theorem Counted.discount (h : Counted c a workers) (hw : workers[w]? = some pc)
    (halive : pc.active = true ∧ pc.alive = true) (hgone : pc'.active = false ∧ pc'.alive = false) :
    Counted (c - 1) (a - 1) (workers.set w pc') := by
  have hc := h.count_pos hw halive.2
  have ha := h.active_pos hw halive.1
  refine h.workerAt hw ?_ ?_
  · rw [halive.2, hgone.2]
    show c - 1 + 1 = c + 0
    omega
  · rw [halive.1, hgone.1]
    show a - 1 + 1 = a + 0
    omega

end

def CountInv (s : PoolState σ τ ι) : Prop :=
  Counted s.workerCount s.activeWorkerCount s.workers

section
variable [DecidableEq ι] {i : ι} {w : Nat} {created : Bool} {es : List (Event τ)} {a : Act τ ι}

theorem CallerMove.counted (h : CallerMove policy s i created s' es) (hinv : CountInv s) :
    CountInv s' := by
  cases h with
  | pushNotify hcaller hpush hasleep => exact hinv.workerAt hasleep rfl rfl
  | resizeDown | terminateJoin | terminate => exact hinv.notifyAllTasks
  | create => exact hinv.create
  | _ => exact hinv

omit [DecidableEq ι] in
theorem WorkerMove.counted (h : WorkerMove policy s w created s' es) (hinv : CountInv s) :
    CountInv s' := by
  cases h with
  | lock hw hlock =>
    obtain ⟨-, -, halive, halive', hactive, hactive'⟩ := WorkerPc.afterLock_same hlock
    exact hinv.workerAt hw (by rw [halive, halive']; rfl) (by rw [hactive, hactive']; rfl)
  | leave hw hpc => rcases hpc with rfl | rfl <;> exact hinv.workerAt hw rfl rfl
  | stay hw | returned hw | threw hw | take hw | wake hw | replaced hw | exit hw =>
    exact hinv.workerAt hw rfl rfl
  | sleep hw =>
    have hpos : 0 < s.activeWorkerCount := hinv.active_pos hw rfl
    refine hinv.workerAt hw rfl ?_
    show s.activeWorkerCount - 1 + 1 = s.activeWorkerCount + 0
    omega
  | destructed hw | diedTerminating hw | replace hw =>
    exact hinv.discount hw ⟨rfl, rfl⟩ ⟨rfl, rfl⟩
  | create => exact hinv.create

theorem OtherMove.counted (h : OtherMove s a s') (hinv : CountInv s) : CountInv s' := by
  cases h with
  | call | timeout | spuriousCaller => exact hinv
  | spuriousWorker hw =>
    exact hinv.workerAt hw (by rw [WorkerPc.notified_alive]; rfl)
      (by rw [WorkerPc.notified_active]; rfl)

theorem reachable_countInv (h : Reachable (step policy) (PoolState.init policy) s) :
    CountInv s := by
  refine h.invariant ⟨rfl, rfl⟩ ?_
  intro s a s' hinv hstep
  obtain ⟨i, created, hcaller, -⟩ | ⟨w, created, hworker, -⟩ | ⟨hother, -⟩ := step_cases hstep
  · exact hcaller.counted hinv
  · exact hworker.counted hinv
  · exact hother.counted hinv

/-! ## What the counters say -/

/-- The worker is running a task. -/
def WorkerPc.isRunning : WorkerPc τ → Bool
  | .running _ => true
  | _ => false

/-- A caller that leaves the loop of `wait`. -/
theorem waited_le (h : Reachable (step policy) (PoolState.init policy) s) {timed : Bool}
    {threshold : Nat} (hcaller : s.caller i = .waitTest timed threshold) {chosen : Option Nat}
    (hstep : step policy s (.caller i chosen created) = some s') (hidle : s'.caller i = .idle) :
    s.workers.countP WorkerPc.isRunning + (policy.tasks s.scheduler).card ≤ threshold ∧
      s' = s.unlockCaller i .idle := by
  have hinv := reachable_countInv h
  have hrunning : s.workers.countP WorkerPc.isRunning ≤ s.activeWorkerCount := by
    rw [hinv.active]
    refine List.countP_mono_left fun pc _ hpc => ?_
    cases pc with
    | running => rfl
    | _ => cases hpc
  simp only [step, callerStep, hcaller] at hstep
  split at hstep
  next =>
    cases hstep
    simp [PoolState.unlockCaller, PoolState.atCaller] at hidle
  next hnot =>
    cases hstep
    refine ⟨?_, rfl⟩
    have hnot := Bool.eq_false_iff.mpr hnot
    unfold PoolState.busy at hnot
    rw [← policy.size_eq]
    split at hnot
    next hzero =>
      -- without a threshold the test is whether the scheduler is empty
      rw [Bool.or_eq_false_iff] at hnot
      have hactive : s.activeWorkerCount = 0 := by simpa using hnot.1
      have hempty := (policy.empty_iff s.scheduler).mp (by simpa using hnot.2)
      have hsize := policy.size_eq s.scheduler
      rw [hempty, Multiset.card_zero] at hsize
      omega
    next =>
      have hle := of_decide_eq_false hnot
      omega

/-- **What `wait` guarantees.** Where a caller leaves the loop of `wait` by its
condition in a reachable state, the tasks that are running and those that are
pending are together no more than its threshold. A timed `wait` that times out
returns from inside the loop. -/
theorem wait_returns (h : Reachable (step policy) (PoolState.init policy) s) {timed : Bool}
    {threshold : Nat} (hcaller : s.caller i = .waitTest timed threshold) {chosen : Option Nat}
    (hstep : step policy s (.caller i chosen created) = some s') (hidle : s'.caller i = .idle) :
    s.workers.countP WorkerPc.isRunning + (policy.tasks s.scheduler).card ≤ threshold :=
  (waited_le h hcaller hstep hidle).1

end

/-- `wait(0)` returns after the one task of a run. -/
theorem wait_returns_one_worker :
    ∃ s s' : PoolState (List Nat) Nat Unit,
      run (step fifoScheduler) (PoolState.init fifoScheduler) (oneWorkerRun.take 17) = some s ∧
      step fifoScheduler s (.caller () none true) = some s' ∧ s'.caller () = .idle ∧
      s.workers.countP WorkerPc.isRunning + (fifoScheduler.tasks s.scheduler).card ≤ 0 := by
  have hrun : (run (step fifoScheduler) (PoolState.init fifoScheduler) (oneWorkerRun.take 17)).map
      (fun s => (s.caller (),
        (step fifoScheduler s (.caller () none true)).map fun s' => s'.caller ()))
      = some (.waitTest false 0, some .idle) := rfl
  obtain ⟨s, hs, hboth⟩ := Option.map_eq_some_iff.mp hrun
  obtain ⟨hcaller, hnext⟩ := Prod.mk.inj hboth
  obtain ⟨s', hstep, hidle⟩ := Option.map_eq_some_iff.mp hnext
  exact ⟨s, s', hs, hstep, hidle, wait_returns ⟨_, hs⟩ hcaller hstep hidle⟩

end Satf.ThreadPool
