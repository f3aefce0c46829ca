import Satf.ThreadPool.Counters

/-!
# Where the pool comes to rest

The invariants behind progress. `SizeInv`: while workers are being created,
nobody terminates the pool. `AsleepInv`: a worker that sleeps without a
notification does so because no worker is too many, and because no more tasks
are pending than workers have been notified. `WaitInv`: who waits without a
notification waits for a worker that will give one.

> `rests_when_done`: where no thread can take a step, a pool that has a worker
> left has no task pending, no task running, and no caller in the middle of a
> call.

The exception is a pool without workers; `Sizes` says how it comes to that.
-/

namespace Satf.ThreadPool

open Satf.Lib

variable {σ τ ι : Type} {policy : SchedulingPolicy σ τ} {s s' : PoolState σ τ ι} {i : ι} {w : Nat}
  {created : Bool} {es : List (Event τ)} {a : Act τ ι}

/-! ## Creating and terminating -/

/-- The caller is creating workers. -/
def CallerPc.grows : CallerPc τ → Bool
  | .resizing => true
  | _ => false

/-- The worker is creating the one that replaces it. -/
def WorkerPc.grows : WorkerPc τ → Bool
  | .replacing => true
  | _ => false

/-- The pool is not being terminated, and no worker is too many. -/
def Fits (s : PoolState σ τ ι) : Prop :=
  s.terminateAllWorkers = false ∧ s.workerCount ≤ s.targetWorkerCount

/-- The flag keeps the target at zero, and while workers are being created the
pool fits. -/
structure SizeInv (s : PoolState σ τ ι) : Prop where
  flag : s.terminateAllWorkers = true → s.targetWorkerCount = 0
  caller : ∀ i, (s.caller i).grows = true → Fits s
  worker : ∀ (w : Nat) (pc : WorkerPc τ), s.workers[w]? = some pc → pc.grows = true → Fits s

theorem SizeInv.of_fits (h : Fits s) : SizeInv s :=
  ⟨fun hflag => absurd hflag (by simp [h.1]), fun _ _ => h, fun _ _ _ _ => h⟩

/-- While a caller holds the monitor, only it can be creating workers. -/
theorem LockInv.nobody_grows (h : LockInv s) (hi : (s.caller i).locked = true)
    (hnot : (s.caller i).grows = false) :
    (∀ j, (s.caller j).grows = false) ∧
      ∀ (v : Nat) (pc : WorkerPc τ), s.workers[v]? = some pc → pc.grows = false := by
  have hmonitor := (h.caller i).mp hi
  constructor
  · intro j
    cases hpc : s.caller j with
    | resizing =>
      have hheld := (h.caller j).mp (by rw [hpc]; rfl)
      rw [hmonitor] at hheld
      cases hheld
      rw [← hpc]
      exact hnot
    | _ => rfl
  · intro v pc hv
    cases pc with
    | replacing =>
      have hheld := (h.worker v _ hv).mp rfl
      rw [hmonitor] at hheld
      cases hheld
    | _ => rfl

theorem CallerPc.afterLock_grows {pc pc' : CallerPc τ} (h : pc.afterLock = some pc') :
    pc'.grows = false := by
  cases pc with
  | waitBlocked timed threshold notified | terminateBlocked notified =>
    cases notified <;> cases h; rfl
  | _ => cases h <;> rfl

theorem WorkerPc.afterLock_grows {pc pc' : WorkerPc τ} (h : pc.afterLock = some pc') :
    pc'.grows = false := by
  cases pc with
  | fetch | destruct | died => cases h; rfl
  | _ => cases h

theorem WorkerPc.notified_grows (pc : WorkerPc τ) : pc.notified.grows = pc.grows := by
  cases pc <;> rfl

theorem CallerPc.notified_grows (pc : CallerPc τ) : pc.notified.grows = pc.grows := by
  cases pc <;> rfl

/-- The workers after a notification of all of them. -/
theorem forall_notified {P : WorkerPc τ → Prop} {workers : List (WorkerPc τ)}
    (h : ∀ (w : Nat) pc, workers[w]? = some pc → P pc.notified) :
    ∀ (w : Nat) pc, (workers.map WorkerPc.notified)[w]? = some pc → P pc := by
  intro w pc hw
  rw [List.getElem?_map] at hw
  obtain ⟨pc', hw', rfl⟩ := Option.map_eq_some_iff.mp hw
  exact h w pc' hw'

variable [DecidableEq ι]

theorem CallerMove.sizeInv (h : CallerMove policy s i created s' es) (hlocks : LockInv s)
    (hinv : SizeInv s) : SizeInv s' := by
  -- the caller does not go on to create workers
  have hquiet : ∀ {pc : CallerPc τ}, pc.grows = false →
      ∀ j, (Function.update s.caller i pc j).grows = true → Fits s := fun hpc =>
    forall_update (P := fun _ pc => pc.grows = true → Fits s) hinv.caller
      fun h => absurd h (by simp [hpc])
  cases h with
  | lock hlock => exact ⟨hinv.flag, hquiet (CallerPc.afterLock_grows hlock), hinv.worker⟩
  | refused | push | cleared | waitBlock | waited | gaveUp | resizeRefused | resized
  | terminateBlock | startJoin | join | joined => exact ⟨hinv.flag, hquiet rfl, hinv.worker⟩
  | pushNotify hcaller hpush hasleep =>
    refine ⟨hinv.flag, hquiet rfl, ?_⟩
    exact forall_set (P := fun _ (pc : WorkerPc τ) => pc.grows = true → Fits s) hinv.worker
      fun h => by cases h
  | resizeUp hcaller hflag hle => exact .of_fits ⟨hflag, hle⟩
  | create hcaller hmore => exact .of_fits ⟨(hinv.caller i (by rw [hcaller]; rfl)).1, hmore⟩
  | resizeDown hcaller hflag =>
    obtain ⟨hcallers, hworkers⟩ := hlocks.nobody_grows (i := i) (by rw [hcaller]; rfl)
      (by rw [hcaller]; rfl)
    refine ⟨fun h => absurd (hflag.symm.trans h) (by simp), ?_, ?_⟩
    · exact forall_update (P := fun _ pc => pc.grows = true → _)
        (fun j h => absurd (h.symm.trans (hcallers j)) (by simp)) fun h => by cases h
    · refine forall_notified (P := fun pc => pc.grows = true → _) fun v pc hv h => ?_
      rw [WorkerPc.notified_grows, hworkers v pc hv] at h
      cases h
  | terminateJoin hcaller | terminate hcaller =>
    obtain ⟨hcallers, hworkers⟩ := hlocks.nobody_grows (i := i) (by rw [hcaller]; rfl)
      (by rw [hcaller]; rfl)
    refine ⟨fun _ => rfl, ?_, ?_⟩
    · exact forall_update (P := fun _ pc => pc.grows = true → _)
        (fun j h => absurd (h.symm.trans (hcallers j)) (by simp)) fun h => by cases h
    · refine forall_notified (P := fun pc => pc.grows = true → _) fun v pc hv h => ?_
      rw [WorkerPc.notified_grows, hworkers v pc hv] at h
      cases h

omit [DecidableEq ι] in
theorem WorkerMove.sizeInv (h : WorkerMove policy s w created s' es) (hinv : SizeInv s) :
    SizeInv s' := by
  have hquiet : ∀ {pc : WorkerPc τ}, pc.grows = false →
      ∀ (v : Nat) (pcv : WorkerPc τ), (s.workers.set w pc)[v]? = some pcv → pcv.grows = true →
        Fits s := fun hpc =>
    forall_set (P := fun _ (pc : WorkerPc τ) => pc.grows = true → Fits s) hinv.worker
      fun h => absurd h (by simp [hpc])
  cases h with
  | lock hw hlock => exact ⟨hinv.flag, hinv.caller, hquiet (WorkerPc.afterLock_grows hlock)⟩
  | wake | leave | stay | take | returned | threw | replaced | exit =>
    exact ⟨hinv.flag, hinv.caller, hquiet rfl⟩
  | sleep =>
    exact ⟨hinv.flag, fun i h => hinv.caller i (by rw [← CallerPc.notified_grows]; exact h),
      hquiet rfl⟩
  | destructed | diedTerminating =>
    -- the count falls, so that the pool still fits if it did
    have hfits : Fits s → Fits { s with workerCount := s.workerCount - 1 } :=
      fun h => ⟨h.1, Nat.le_trans (Nat.sub_le _ _) h.2⟩
    exact ⟨hinv.flag,
      fun i h => hfits (hinv.caller i (by rw [← CallerPc.notified_grows]; exact h)),
      fun v pc hv h => hfits (hquiet rfl v pc hv h)⟩
  | replace hw hflag => exact .of_fits ⟨hflag, Nat.le_succ _⟩
  | create hw hmore => exact .of_fits ⟨(hinv.worker w _ hw rfl).1, hmore⟩

theorem OtherMove.sizeInv (h : OtherMove s a s') (hinv : SizeInv s) : SizeInv s' := by
  cases h with
  | call hcaller call =>
    refine ⟨hinv.flag, ?_, hinv.worker⟩
    exact forall_update (P := fun _ pc => pc.grows = true → Fits s) hinv.caller
      fun h => by cases call <;> cases h
  | timeout =>
    refine ⟨hinv.flag, ?_, hinv.worker⟩
    exact forall_update (P := fun _ pc => pc.grows = true → Fits s) hinv.caller fun h => by cases h
  | spuriousCaller i =>
    refine ⟨hinv.flag, ?_, hinv.worker⟩
    exact forall_update (P := fun _ pc => pc.grows = true → Fits s) hinv.caller
      fun h => hinv.caller i (by rw [← CallerPc.notified_grows]; exact h)
  | spuriousWorker hw =>
    refine ⟨hinv.flag, hinv.caller, ?_⟩
    exact forall_set (P := fun _ (pc : WorkerPc τ) => pc.grows = true → Fits s) hinv.worker
      fun h => hinv.worker _ _ hw (by rw [← WorkerPc.notified_grows]; exact h)

theorem reachable_sizeInv (h : Reachable (step policy) (PoolState.init policy) s) : SizeInv s := by
  refine h.invariant_along (.of_fits ⟨rfl, Nat.le_refl 0⟩) ?_
  intro s a s' hreach hinv hstep
  obtain ⟨i, created, hcaller, -⟩ | ⟨w, created, hworker, -⟩ | ⟨hother, -⟩ := step_cases hstep
  · exact hcaller.sizeInv (reachable_lockInv hreach) hinv
  · exact hworker.sizeInv hinv
  · exact hother.sizeInv hinv

/-! ## Sleeping workers -/

/-- The worker will look into the scheduler without asking whether it is one
too many. -/
def WorkerPc.comes : WorkerPc τ → Bool
  | .blocked notified => notified
  | .loopTest => true
  | _ => false

/-- While a worker sleeps, no worker is too many, and no more tasks are pending
than workers are coming for them. -/
structure AsleepInv (policy : SchedulingPolicy σ τ) (s : PoolState σ τ ι) : Prop where
  room : ∀ pc ∈ s.workers, pc.asleep = true → s.workerCount ≤ s.targetWorkerCount
  enough : ∀ pc ∈ s.workers, pc.asleep = true →
    (policy.tasks s.scheduler).card ≤ s.workers.countP WorkerPc.comes

omit [DecidableEq ι] in
/-- No worker starts to sleep; the target does not fall below the count, nor
the workers that come below the pending tasks. -/
theorem AsleepInv.mono (hinv : AsleepInv policy s)
    (hasleep : ∀ pc ∈ s'.workers, pc.asleep = true → ∃ pc ∈ s.workers, pc.asleep = true)
    (hroom : s.workerCount ≤ s.targetWorkerCount → s'.workerCount ≤ s'.targetWorkerCount)
    (henough : (policy.tasks s.scheduler).card ≤ s.workers.countP WorkerPc.comes →
      (policy.tasks s'.scheduler).card ≤ s'.workers.countP WorkerPc.comes) :
    AsleepInv policy s' where
  room := by
    intro pc hpc h
    obtain ⟨pc', hpc', h'⟩ := hasleep pc hpc h
    exact hroom (hinv.room pc' hpc' h')
  enough := by
    intro pc hpc h
    obtain ⟨pc', hpc', h'⟩ := hasleep pc hpc h
    exact henough (hinv.enough pc' hpc' h')

omit [DecidableEq ι] in
/-- Nobody sleeps. -/
theorem AsleepInv.of_awake (h : ∀ pc ∈ s.workers, pc.asleep = false) : AsleepInv policy s where
  room := fun pc hpc hasleep => absurd hasleep (by simp [h pc hpc])
  enough := fun pc hpc hasleep => absurd hasleep (by simp [h pc hpc])

theorem asleep_of_set {workers : List (WorkerPc τ)} {pc : WorkerPc τ} (hpc : pc.asleep = false) :
    ∀ pc' ∈ workers.set w pc, pc'.asleep = true → ∃ pc ∈ workers, pc.asleep = true := by
  intro pc' hmem h
  rcases List.mem_or_eq_of_mem_set hmem with hmem | rfl
  · exact ⟨pc', hmem, h⟩
  · rw [hpc] at h
    cases h

theorem awake_of_notified {workers : List (WorkerPc τ)} :
    ∀ pc ∈ workers.map WorkerPc.notified, pc.asleep = false := by
  intro pc hpc
  obtain ⟨pc', -, rfl⟩ := List.mem_map.mp hpc
  cases pc' <;> rfl

theorem asleep_of_create {workers : List (WorkerPc τ)} :
    ∀ pc ∈ workers ++ [.fetch], pc.asleep = true → ∃ pc ∈ workers, pc.asleep = true := by
  intro pc hpc h
  rcases List.mem_append.mp hpc with hpc | hpc
  · exact ⟨pc, hpc, h⟩
  · rw [List.mem_singleton] at hpc
    rw [hpc] at h
    cases h

theorem countP_comes_create (workers : List (WorkerPc τ)) :
    (workers ++ [WorkerPc.fetch]).countP WorkerPc.comes = workers.countP WorkerPc.comes := by
  rw [List.countP_append]
  rfl

theorem CallerMove.asleepInv (h : CallerMove policy s i created s' es)
    (hinv : AsleepInv policy s) : AsleepInv policy s' := by
  cases h with
  | lock | refused | waitBlock | waited | gaveUp | resizeRefused | resized | terminateBlock
  | startJoin | join | joined => exact hinv.mono (fun pc hpc h => ⟨pc, hpc, h⟩) id id
  | @pushNotify task c w hcaller hpush hasleep =>
    -- one more task, and one more worker that comes
    refine hinv.mono (asleep_of_set rfl) id fun h => ?_
    have hcomes := countP_set_add WorkerPc.comes (.blocked true) hasleep
    show (policy.tasks c).card ≤ (s.workers.set w (.blocked true)).countP WorkerPc.comes
    rw [policy.tasks_push hpush, Multiset.card_cons]
    simp only [WorkerPc.comes, Bool.toNat_true, Bool.toNat_false] at hcomes
    omega
  | push hcaller hpush hawake => exact .of_awake hawake
  | cleared =>
    refine hinv.mono (fun pc hpc h => ⟨pc, hpc, h⟩) id fun _ => ?_
    show (policy.tasks policy.clear).card ≤ _
    rw [policy.tasks_clear]
    exact Nat.zero_le _
  | resizeUp hcaller hflag hle => exact hinv.mono (fun pc hpc h => ⟨pc, hpc, h⟩) (fun _ => hle) id
  | resizeDown | terminateJoin | terminate => exact .of_awake awake_of_notified
  | create hcaller hmore =>
    exact hinv.mono asleep_of_create (fun _ => hmore)
      fun h => Nat.le_trans h (Nat.le_of_eq (countP_comes_create _).symm)

theorem WorkerPc.afterLock_comes {pc pc' : WorkerPc τ} (h : pc.afterLock = some pc') :
    pc'.asleep = false ∧ pc.comes = pc'.comes := by
  cases pc with
  | fetch | destruct | died => cases h; exact ⟨rfl, rfl⟩
  | _ => cases h

omit [DecidableEq ι] in
theorem WorkerMove.asleepInv (h : WorkerMove policy s w created s' es)
    (hinv : AsleepInv policy s) : AsleepInv policy s' := by
  have hcomes : ∀ {pc pc' : WorkerPc τ}, s.workers[w]? = some pc → pc.comes = pc'.comes →
      s.workers.countP WorkerPc.comes ≤ (s.workers.set w pc').countP WorkerPc.comes := by
    intro pc pc' hw hsame
    have hset := countP_set_add WorkerPc.comes pc' hw
    rw [hsame] at hset
    exact Nat.le_of_eq (Nat.add_right_cancel hset).symm
  cases h with
  | lock hw hlock =>
    obtain ⟨hasleep, hsame⟩ := WorkerPc.afterLock_comes hlock
    exact hinv.mono (asleep_of_set hasleep) id fun h => Nat.le_trans h (hcomes hw hsame)
  | wake hw | returned hw | threw hw | replaced hw | exit hw =>
    exact hinv.mono (asleep_of_set rfl) id fun h => Nat.le_trans h (hcomes hw rfl)
  | destructed hw | diedTerminating hw =>
    exact hinv.mono (asleep_of_set rfl) (Nat.le_trans (Nat.sub_le _ _))
      fun h => Nat.le_trans h (hcomes hw rfl)
  | replace hw =>
    exact hinv.mono (asleep_of_set rfl) (fun _ => Nat.le_succ _)
      fun h => Nat.le_trans h (hcomes hw rfl)
  | leave hw hpc hmany =>
    -- a worker is too many, so none sleeps
    refine .of_awake fun pc hpc => Bool.eq_false_iff.mpr fun hasleep => ?_
    obtain ⟨pc', hmem, h⟩ := asleep_of_set rfl pc hpc hasleep
    exact Nat.not_lt_of_le (hinv.room pc' hmem h) hmany
  | stay hw =>
    refine hinv.mono (asleep_of_set rfl) id fun h => Nat.le_trans h ?_
    have hset := countP_set_add WorkerPc.comes .loopTest hw
    show s.workers.countP WorkerPc.comes ≤ (s.workers.set w .loopTest).countP WorkerPc.comes
    simp only [WorkerPc.comes, Bool.toNat_true, Bool.toNat_false] at hset
    omega
  | sleep hw hempty hfew =>
    refine ⟨fun _ _ _ => hfew, fun _ _ _ => ?_⟩
    show (policy.tasks s.scheduler).card ≤ _
    rw [(policy.empty_iff _).mp hempty]
    exact Nat.zero_le _
  | @take task hw hsome htop =>
    -- one task less, and one worker less that comes
    refine hinv.mono (asleep_of_set rfl) id fun h => ?_
    obtain ⟨t, -, htasks⟩ := policy.tasks_pop hsome
    have hset := countP_set_add WorkerPc.comes (.running task) hw
    show (policy.tasks (policy.pop s.scheduler)).card
      ≤ (s.workers.set w (.running task)).countP WorkerPc.comes
    rw [htasks, Multiset.card_cons] at h
    simp only [WorkerPc.comes, Bool.toNat_true, Bool.toNat_false] at hset
    omega
  | create hw hmore =>
    exact hinv.mono asleep_of_create (fun _ => hmore)
      fun h => Nat.le_trans h (Nat.le_of_eq (countP_comes_create _).symm)

theorem OtherMove.asleepInv (h : OtherMove s a s') (hinv : AsleepInv policy s) :
    AsleepInv policy s' := by
  cases h with
  | call | timeout | spuriousCaller => exact hinv.mono (fun pc hpc h => ⟨pc, hpc, h⟩) id id
  | @spuriousWorker w pc hw =>
    refine hinv.mono (asleep_of_set (by cases pc <;> rfl)) id fun h => Nat.le_trans h ?_
    have hset := countP_set_add WorkerPc.comes pc.notified hw
    have hle : pc.comes.toNat ≤ pc.notified.comes.toNat := by
      cases pc with
      | blocked notified =>
        cases notified with
        | false => exact Nat.zero_le _
        | true => exact Nat.le_refl _
      | _ => exact Nat.le_refl _
    show s.workers.countP WorkerPc.comes ≤ (s.workers.set w pc.notified).countP WorkerPc.comes
    omega

theorem reachable_asleepInv (h : Reachable (step policy) (PoolState.init policy) s) :
    AsleepInv policy s := by
  refine h.invariant (.of_awake fun pc hpc => by cases hpc) ?_
  intro s a s' hinv hstep
  obtain ⟨i, created, hcaller, -⟩ | ⟨w, created, hworker, -⟩ | ⟨hother, -⟩ := step_cases hstep
  · exact hcaller.asleepInv hinv
  · exact hworker.asleepInv hinv
  · exact hother.asleepInv hinv

/-! ## Waiting callers -/

/-- The worker has not left, and does not sleep. -/
def WorkerPc.stirs (pc : WorkerPc τ) : Bool := pc.alive && !pc.asleep

/-- Something is still to come of the pool. -/
def Stirring (policy : SchedulingPolicy σ τ) (s : PoolState σ τ ι) : Prop :=
  0 < s.workers.countP WorkerPc.stirs ∨ policy.tasks s.scheduler ≠ 0

/-- The same, or no worker is left. -/
def Awaited (policy : SchedulingPolicy σ τ) (s : PoolState σ τ ι) : Prop :=
  Stirring policy s ∨ s.workers.countP WorkerPc.alive = 0

/-- Who waits without a notification has something to wait for. -/
structure WaitInv (policy : SchedulingPolicy σ τ) (s : PoolState σ τ ι) : Prop where
  wait : ∀ i timed threshold, s.caller i = .waitBlocked timed threshold false → Awaited policy s
  terminate : ∀ i, s.caller i = .terminateBlocked false → 0 < s.activeWorkerCount

theorem stirs_set {workers : List (WorkerPc τ)} {pc pc' : WorkerPc τ} (hw : workers[w]? = some pc)
    (hpc' : pc'.stirs = true) : 0 < (workers.set w pc').countP WorkerPc.stirs := by
  have hlt := (List.getElem?_eq_some_iff.mp hw).1
  exact countP_pos_of_getElem? (i := w) (by simp [hlt]) hpc'

theorem CallerPc.notified_awake {pc : CallerPc τ} :
    (∀ timed threshold, pc.notified ≠ .waitBlocked timed threshold false) ∧
      pc.notified ≠ .terminateBlocked false := by
  cases pc <;> simp [CallerPc.notified]

omit [DecidableEq ι] in
/-- After a notification of all callers, none is left to wait. -/
theorem WaitInv.of_notified (h : s'.caller = fun i => (s.caller i).notified) :
    WaitInv policy s' where
  wait := fun i timed threshold hi =>
    absurd (congrFun h i ▸ hi) (CallerPc.notified_awake.1 timed threshold)
  terminate := fun i hi => absurd (congrFun h i ▸ hi) CallerPc.notified_awake.2

omit [DecidableEq ι] in
/-- The callers stay where they are. -/
theorem WaitInv.mono (hinv : WaitInv policy s) (hcaller : s'.caller = s.caller)
    (hawaited : Awaited policy s → Awaited policy s')
    (hactive : s.activeWorkerCount ≤ s'.activeWorkerCount) : WaitInv policy s' where
  wait := fun i timed threshold hi => hawaited (hinv.wait i timed threshold (hcaller ▸ hi))
  terminate := fun i hi => Nat.lt_of_lt_of_le (hinv.terminate i (hcaller ▸ hi)) hactive

omit [DecidableEq ι] in
/-- A worker that has left moves on. -/
theorem stirring_of_gone {pc pc' : WorkerPc τ} (hw : s.workers[w]? = some pc)
    (hpc : pc.alive = false) (hpc' : pc'.alive = false)
    (hscheduler : s'.scheduler = s.scheduler) (hworkers : s'.workers = s.workers.set w pc')
    (h : Stirring policy s) : Stirring policy s' := by
  have hgone : ∀ {pc : WorkerPc τ}, pc.alive = false → pc.stirs = false :=
    fun h => by rw [WorkerPc.stirs, h]; rfl
  have hstirs := countP_set_add WorkerPc.stirs pc' hw
  rw [hgone hpc, hgone hpc'] at hstirs
  unfold Stirring
  rw [hworkers, hscheduler, Nat.add_right_cancel hstirs]
  exact h

omit [DecidableEq ι] in
theorem awaited_of_gone {pc pc' : WorkerPc τ} (hw : s.workers[w]? = some pc)
    (hpc : pc.alive = false) (hpc' : pc'.alive = false)
    (hscheduler : s'.scheduler = s.scheduler) (hworkers : s'.workers = s.workers.set w pc')
    (h : Awaited policy s) : Awaited policy s' := by
  refine h.imp (stirring_of_gone hw hpc hpc' hscheduler hworkers) fun h => ?_
  have halive := countP_set_add WorkerPc.alive pc' hw
  rw [hpc, hpc'] at halive
  rw [hworkers, Nat.add_right_cancel halive]
  exact h

theorem WorkerPc.afterLock_stirs {pc pc' : WorkerPc τ} (h : pc.afterLock = some pc') :
    pc'.stirs = true := by
  cases pc with
  | fetch | destruct | died => cases h; rfl
  | _ => cases h

omit [DecidableEq ι] in
theorem stirring_create : Stirring policy s.create := by
  left
  show 0 < (s.workers ++ [WorkerPc.fetch]).countP WorkerPc.stirs
  rw [List.countP_append]
  exact Nat.succ_pos _

omit [DecidableEq ι] in
theorem WorkerMove.waitInv (h : WorkerMove policy s w created s' es) (hinv : WaitInv policy s) :
    WaitInv policy s' := by
  cases h with
  | lock hw hlock =>
    have hstirs := WorkerPc.afterLock_stirs hlock
    exact hinv.mono rfl (fun _ => .inl (.inl (stirs_set hw hstirs))) (Nat.le_refl _)
  | wake hw => exact hinv.mono rfl (fun _ => .inl (.inl (stirs_set hw rfl))) (Nat.le_succ _)
  | leave hw | stay hw | take hw | returned hw | threw hw =>
    exact hinv.mono rfl (fun _ => .inl (.inl (stirs_set hw rfl))) (Nat.le_refl _)
  | sleep | destructed | diedTerminating | replace => exact .of_notified (s := s) rfl
  | create hw =>
    exact hinv.mono rfl (fun _ => .inl stirring_create) (Nat.le_succ _)
  | replaced hw | exit hw =>
    exact hinv.mono rfl (awaited_of_gone hw rfl rfl rfl rfl) (Nat.le_refl _)

/-- A caller goes on to `pc`. -/
theorem WaitInv.callerTo (hinv : WaitInv policy s) {pc : CallerPc τ}
    (hcaller : s'.caller = Function.update s.caller i pc)
    (hwait : ∀ timed threshold, pc = .waitBlocked timed threshold false → Awaited policy s')
    (hterminate : pc = .terminateBlocked false → 0 < s'.activeWorkerCount)
    (hawaited : Awaited policy s → Awaited policy s')
    (hactive : s.activeWorkerCount ≤ s'.activeWorkerCount) : WaitInv policy s' where
  wait := by
    rw [hcaller]
    exact forall_update
      (P := fun _ pc => ∀ timed threshold, pc = .waitBlocked timed threshold false → _)
      (fun j timed threshold h => hawaited (hinv.wait j timed threshold h)) hwait
  terminate := by
    rw [hcaller]
    exact forall_update (P := fun _ pc => pc = .terminateBlocked false → _)
      (fun j h => Nat.lt_of_lt_of_le (hinv.terminate j h) hactive) hterminate

omit [DecidableEq ι] in
/-- Where a call waits, something is to be waited for. -/
theorem stirring_of_busy (hcount : CountInv s) {threshold : Nat}
    (hbusy : s.busy policy threshold = true) : Stirring policy s := by
  have hstirs : s.activeWorkerCount ≤ s.workers.countP WorkerPc.stirs := by
    rw [hcount.active]
    refine List.countP_mono_left fun pc _ hpc => ?_
    cases pc with
    | blocked => cases hpc
    | _ => exact hpc
  have hsize := policy.size_eq s.scheduler
  by_cases htasks : policy.tasks s.scheduler = 0
  · left
    rw [htasks, Multiset.card_zero] at hsize
    have hempty := (policy.empty_iff s.scheduler).mpr htasks
    unfold PoolState.busy at hbusy
    split at hbusy
    next =>
      rw [hempty, Bool.not_true, Bool.or_false, bne_iff_ne] at hbusy
      omega
    next =>
      have hlt := of_decide_eq_true hbusy
      omega
  · exact .inr htasks

theorem WorkerPc.stirs_of_comes {pc : WorkerPc τ} (h : pc.comes = true) : pc.stirs = true := by
  cases pc with
  | blocked notified =>
    cases notified with
    | false => cases h
    | true => rfl
  | loopTest => rfl
  | _ => cases h

omit [DecidableEq ι] in
/-- `clear` takes away what somebody may wait for, and notifies nobody. But
where tasks were pending and workers are left, one of them is coming. -/
theorem awaited_of_cleared (hasleep : AsleepInv policy s) (h : Awaited policy s) :
    0 < s.workers.countP WorkerPc.stirs ∨ s.workers.countP WorkerPc.alive = 0 := by
  rcases h with (h | h) | h
  · exact .inl h
  · by_contra hnot
    obtain ⟨hstirs, halive⟩ := not_or.mp hnot
    -- every worker that is left sleeps, so no task can be pending
    obtain ⟨pc, hpc, hpcalive⟩ := List.countP_pos_iff.mp (Nat.pos_of_ne_zero halive)
    have hnone := List.countP_eq_zero.mp (Nat.eq_zero_of_not_pos hstirs)
    have hpcasleep : pc.asleep = true := by
      have hstill := hnone pc hpc
      rw [WorkerPc.stirs, hpcalive, Bool.true_and, Bool.not_eq_true', Bool.not_eq_false] at hstill
      exact hstill
    have hcomes : s.workers.countP WorkerPc.comes = 0 :=
      List.countP_eq_zero.mpr fun pc' hpc' h => hnone pc' hpc' (WorkerPc.stirs_of_comes h)
    have hcard := hasleep.enough pc hpc hpcasleep
    rw [hcomes] at hcard
    exact h (Multiset.card_eq_zero.mp (Nat.le_zero.mp hcard))
  · exact .inr h

omit [DecidableEq ι] in
/-- Every worker is notified. -/
theorem stirring_of_notifiedAll (hworkers : s'.workers = s.workers.map WorkerPc.notified)
    (hscheduler : s'.scheduler = s.scheduler) (h : Stirring policy s) : Stirring policy s' := by
  unfold Stirring
  rw [hworkers, hscheduler, List.countP_map]
  refine h.imp_left fun h => ?_
  refine Nat.lt_of_lt_of_le h (List.countP_mono_left fun pc _ hpc => ?_)
  cases pc with
  | blocked => rfl
  | _ => exact hpc

omit [DecidableEq ι] in
theorem awaited_of_notifiedAll (hworkers : s'.workers = s.workers.map WorkerPc.notified)
    (hscheduler : s'.scheduler = s.scheduler) (h : Awaited policy s) : Awaited policy s' := by
  refine h.imp (stirring_of_notifiedAll hworkers hscheduler) fun h => ?_
  rw [hworkers, List.countP_map, ← h]
  exact List.countP_congr fun pc _ => by simp

omit [DecidableEq ι] in
/-- A task is pending. -/
theorem stirring_of_push {task : τ} {c : σ} (hpush : policy.push s.scheduler task = some c)
    (hscheduler : s'.scheduler = c) : Stirring policy s' := by
  right
  rw [hscheduler, policy.tasks_push hpush]
  exact Multiset.cons_ne_zero

theorem CallerMove.waitInv (h : CallerMove policy s i created s' es) (hcount : CountInv s)
    (hasleep : AsleepInv policy s) (hinv : WaitInv policy s) : WaitInv policy s' := by
  cases h with
  | lock hlock =>
    refine hinv.callerTo rfl (fun timed threshold h => ?_) (fun h => ?_) id (Nat.le_refl _)
    · rw [h] at hlock
      exact absurd (CallerPc.afterLock_locked hlock).2 (by simp [CallerPc.locked])
    · rw [h] at hlock
      exact absurd (CallerPc.afterLock_locked hlock).2 (by simp [CallerPc.locked])
  | refused | waited | gaveUp | resizeRefused | resizeUp | resized | startJoin | join | joined =>
    exact hinv.callerTo rfl (fun _ _ h => by cases h) (fun h => by cases h) id (Nat.le_refl _)
  | pushNotify hcaller hpush | push hcaller hpush =>
    exact hinv.callerTo rfl (fun _ _ h => by cases h) (fun h => by cases h)
      (fun _ => .inl (stirring_of_push hpush rfl)) (Nat.le_refl _)
  | cleared =>
    refine hinv.callerTo rfl (fun _ _ h => by cases h) (fun h => by cases h) (fun h => ?_)
      (Nat.le_refl _)
    exact (awaited_of_cleared hasleep h).imp_left .inl
  | waitBlock hcaller hbusy =>
    exact hinv.callerTo rfl (fun _ _ _ => .inl (stirring_of_busy hcount hbusy))
      (fun h => by cases h) id (Nat.le_refl _)
  | terminateBlock hcaller hbusy =>
    exact hinv.callerTo rfl (fun _ _ h => by cases h) (fun _ => hbusy) id (Nat.le_refl _)
  | resizeDown | terminateJoin | terminate =>
    exact hinv.callerTo rfl (fun _ _ h => by cases h) (fun h => by cases h)
      (awaited_of_notifiedAll rfl rfl) (Nat.le_refl _)
  | create => exact hinv.mono rfl (fun _ => .inl stirring_create) (Nat.le_succ _)

theorem OtherMove.waitInv (h : OtherMove s a s') (hinv : WaitInv policy s) : WaitInv policy s' := by
  cases h with
  | call hcaller call =>
    exact hinv.callerTo rfl (fun _ _ h => by cases call <;> cases h)
      (fun h => by cases call <;> cases h) id (Nat.le_refl _)
  | timeout =>
    exact hinv.callerTo rfl (fun _ _ h => by cases h) (fun h => by cases h) id (Nat.le_refl _)
  | spuriousCaller i =>
    exact hinv.callerTo rfl (fun timed threshold h => absurd h (CallerPc.notified_awake.1 _ _))
      (fun h => absurd h CallerPc.notified_awake.2) id (Nat.le_refl _)
  | @spuriousWorker w pc hw =>
    refine hinv.mono rfl (fun h => ?_) (Nat.le_refl _)
    cases hstirs : pc.notified.stirs with
    | true => exact .inl (.inl (stirs_set hw hstirs))
    | false =>
      have hgone : pc.alive = false := by cases pc <;> first | rfl | cases hstirs
      exact awaited_of_gone hw hgone (by rw [WorkerPc.notified_alive, hgone]) rfl rfl h

theorem reachable_waitInv (h : Reachable (step policy) (PoolState.init policy) s) :
    WaitInv policy s := by
  refine h.invariant_along ⟨fun i _ _ h => (by cases h), fun i h => (by cases h)⟩ ?_
  intro s a s' hreach hinv hstep
  obtain ⟨i, created, hcaller, -⟩ | ⟨w, created, hworker, -⟩ | ⟨hother, -⟩ := step_cases hstep
  · exact hcaller.waitInv (reachable_countInv hreach) (reachable_asleepInv hreach) hinv
  · exact hworker.waitInv hinv
  · exact hother.waitInv hinv

/-! ## Workers to be joined -/

/-- The worker does not need the monitor any more. -/
def WorkerPc.gone : WorkerPc τ → Bool
  | .exiting | .finished => true
  | _ => false

/-- Worker `w` is past the monitor. -/
def Gone (workers : List (WorkerPc τ)) (w : Nat) : Prop :=
  ∃ pc, workers[w]? = some pc ∧ pc.gone = true

/-- The workers that are listed, or being joined, are past the monitor. -/
structure JoinInv (s : PoolState σ τ ι) : Prop where
  listed : ∀ w ∈ s.terminatedWorkers, Gone s.workers w
  joining : ∀ i ws, s.caller i = .joining ws → ∀ w ∈ ws, Gone s.workers w

theorem Gone.set {workers : List (WorkerPc τ)} {pc pc' : WorkerPc τ} {v : Nat}
    (h : Gone workers v) (hw : workers[w]? = some pc) (hpc : pc.gone = true → pc'.gone = true) :
    Gone (workers.set w pc') v := by
  obtain ⟨pcv, hv, hgone⟩ := h
  by_cases hvw : w = v
  · subst hvw
    cases hw.symm.trans hv
    exact ⟨pc', by simp [(List.getElem?_eq_some_iff.mp hw).1], hpc hgone⟩
  · exact ⟨pcv, by rw [List.getElem?_set_ne hvw]; exact hv, hgone⟩

theorem Gone.notified {workers : List (WorkerPc τ)} {v : Nat} (h : Gone workers v) :
    Gone (workers.map WorkerPc.notified) v := by
  obtain ⟨pc, hv, hgone⟩ := h
  refine ⟨pc.notified, by rw [List.getElem?_map, hv]; rfl, ?_⟩
  cases pc <;> exact hgone

theorem Gone.create {workers : List (WorkerPc τ)} {v : Nat} (h : Gone workers v) :
    Gone (workers ++ [.fetch]) v := by
  obtain ⟨pc, hv, hgone⟩ := h
  exact ⟨pc, by rw [List.getElem?_append_left (List.getElem?_eq_some_iff.mp hv).1]; exact hv, hgone⟩

omit [DecidableEq ι] in
theorem JoinInv.mono (hinv : JoinInv s)
    (hcaller : ∀ i ws, s'.caller i = .joining ws → s.caller i = .joining ws)
    (hlisted : s'.terminatedWorkers = s.terminatedWorkers)
    (hgone : ∀ v, Gone s.workers v → Gone s'.workers v) : JoinInv s' where
  listed := by
    rw [hlisted]
    exact fun w hw => hgone w (hinv.listed w hw)
  joining := fun i ws hi w hw => hgone w (hinv.joining i ws (hcaller i ws hi) w hw)

/-- A caller goes on to `pc`. -/
theorem JoinInv.callerTo (hinv : JoinInv s) {pc : CallerPc τ}
    (hcaller : s'.caller = Function.update s.caller i pc) (hworkers : s'.workers = s.workers)
    (hlisted : ∀ w ∈ s'.terminatedWorkers, w ∈ s.terminatedWorkers)
    (hpc : ∀ ws, pc = .joining ws → ∀ w ∈ ws, Gone s.workers w) : JoinInv s' where
  listed := by
    rw [hworkers]
    exact fun w hw => hinv.listed w (hlisted w hw)
  joining := by
    rw [hcaller, hworkers]
    exact forall_update (P := fun _ pc => ∀ ws, pc = .joining ws → ∀ w ∈ ws, Gone s.workers w)
      hinv.joining hpc

theorem CallerPc.afterLock_ne_joining {pc : CallerPc τ} {ws : List Nat} :
    pc.afterLock ≠ some (.joining ws) := by
  intro h
  cases pc with
  | waitBlocked timed threshold notified | terminateBlocked notified =>
    cases notified <;> cases h
  | _ => cases h

theorem CallerMove.joinInv (h : CallerMove policy s i created s' es) (hinv : JoinInv s) :
    JoinInv s' := by
  have hquiet : ∀ {pc : CallerPc τ}, (∀ ws, pc ≠ .joining ws) →
      ∀ j ws, Function.update s.caller i pc j = .joining ws → s.caller j = .joining ws := by
    intro pc hpc
    exact forall_update (P := fun j pc => ∀ ws, pc = .joining ws → s.caller j = .joining ws)
      (fun j ws h => h) fun ws h => absurd h (hpc ws)
  cases h with
  | lock hlock =>
    exact hinv.mono (hquiet fun ws h => CallerPc.afterLock_ne_joining (h ▸ hlock)) rfl fun _ => id
  | refused | push | cleared | waitBlock | waited | gaveUp | resizeRefused | resizeUp | resized
  | terminateBlock => exact hinv.mono (hquiet (by simp)) rfl fun _ => id
  | pushNotify hcaller hpush hasleep =>
    exact hinv.mono (hquiet (by simp)) rfl fun v h => h.set hasleep (by simp [WorkerPc.gone])
  | resizeDown | terminateJoin | terminate =>
    exact hinv.mono (hquiet (by simp)) rfl fun v h => h.notified
  | create => exact hinv.mono (fun _ _ => id) rfl fun v h => h.create
  | startJoin =>
    refine hinv.callerTo rfl rfl (fun _ => id) fun ws h => ?_
    cases h
    exact hinv.listed
  | join hcaller =>
    refine hinv.callerTo rfl rfl (fun _ => id) fun ws h => ?_
    cases h
    exact fun v hv => hinv.joining i _ hcaller v (List.mem_cons_of_mem _ hv)
  | joined =>
    exact hinv.callerTo rfl rfl (fun w hw => absurd hw (List.not_mem_nil)) fun ws h => by cases h

omit [DecidableEq ι] in
theorem WorkerMove.joinInv (h : WorkerMove policy s w created s' es) (hinv : JoinInv s) :
    JoinInv s' := by
  have hidle : ∀ j ws, (s.caller j).notified = .joining ws → s.caller j = .joining ws := by
    intro j ws h
    cases hpc : s.caller j <;> rw [hpc] at h <;> first | exact h | cases h
  -- a worker that leaves is past the monitor from now on
  have hleft : ∀ {pc : WorkerPc τ}, s.workers[w]? = some pc →
      ∀ v ∈ s.terminatedWorkers ++ [w], pc.gone = false → Gone (s.workers.set w .exiting) v := by
    intro pc hw v hv hpc
    rcases List.mem_append.mp hv with hv | hv
    · exact (hinv.listed v hv).set hw fun h => absurd h (by simp [hpc])
    · rw [List.mem_singleton] at hv
      subst hv
      exact ⟨.exiting, by simp [(List.getElem?_eq_some_iff.mp hw).1], rfl⟩
  cases h with
  | @lock pc pc' hw hlock =>
    refine hinv.mono (fun _ _ => id) rfl fun v h => h.set hw fun hgone => ?_
    cases pc with
    | exiting | finished => cases hlock
    | _ => cases hgone
  | leave hw hpc =>
    refine hinv.mono (fun _ _ => id) rfl fun v h => h.set hw fun hgone => ?_
    rcases hpc with rfl | rfl <;> cases hgone
  | wake hw | stay hw | take hw | returned hw | threw hw =>
    exact hinv.mono (fun _ _ => id) rfl fun v h => h.set hw (by simp [WorkerPc.gone])
  | replaced hw | exit hw =>
    exact hinv.mono (fun _ _ => id) rfl fun v h => h.set hw fun _ => rfl
  | sleep hw | replace hw => exact hinv.mono hidle rfl fun v h => h.set hw (by simp [WorkerPc.gone])
  | create => exact hinv.mono (fun _ _ => id) rfl fun v h => h.create
  | destructed hw =>
    refine ⟨?_, fun j ws hj v hv => ?_⟩
    · intro v hv
      refine hleft hw v ?_ rfl
      have hv : v ∈ if s.terminateAllWorkers = true then s.terminatedWorkers ++ [w]
          else s.terminatedWorkers := hv
      split at hv
      · exact hv
      · exact List.mem_append_left _ hv
    · exact (hinv.joining j ws (hidle j ws hj) v hv).set hw fun _ => rfl
  | diedTerminating hw =>
    refine ⟨fun v hv => hleft hw v hv rfl, fun j ws hj v hv => ?_⟩
    exact (hinv.joining j ws (hidle j ws hj) v hv).set hw fun _ => rfl

theorem OtherMove.joinInv (h : OtherMove s a s') (hinv : JoinInv s) : JoinInv s' := by
  cases h with
  | call hcaller call =>
    exact hinv.callerTo rfl rfl (fun _ => id) fun ws h => by cases call <;> cases h
  | timeout => exact hinv.callerTo rfl rfl (fun _ => id) fun ws h => by cases h
  | spuriousCaller i =>
    refine hinv.callerTo rfl rfl (fun _ => id) fun ws h => hinv.joining i ws ?_
    cases hpc : s.caller i <;> rw [hpc] at h <;> first | exact h | cases h
  | @spuriousWorker w pc hw =>
    refine hinv.mono (fun _ _ => id) rfl fun v h => h.set hw fun hgone => ?_
    cases pc <;> exact hgone

theorem reachable_joinInv (h : Reachable (step policy) (PoolState.init policy) s) : JoinInv s := by
  refine h.invariant ⟨fun w hw => (by cases hw), fun i ws h => (by cases h)⟩ ?_
  intro s a s' hinv hstep
  obtain ⟨i, created, hcaller, -⟩ | ⟨w, created, hworker, -⟩ | ⟨hother, -⟩ := step_cases hstep
  · exact hcaller.joinInv hinv
  · exact hworker.joinInv hinv
  · exact hother.joinInv hinv

/-! ## Where no thread can move -/

/-- A worker that cannot move waits for the monitor, sleeps, or has ended. -/
theorem stuck_worker (hstuck : Stuck (step policy) Act.ofThread s) {pc : WorkerPc τ}
    (hw : s.workers[w]? = some pc) :
    s.monitor ≠ none ∧ pc.locked = false ∨ pc = .blocked false ∨ pc = .finished := by
  have hnone : workerStep policy s w true = none := hstuck (.worker w true) trivial
  have hlock : ∀ {pc}, s.lockWorker w pc = none → s.monitor ≠ none := by
    intro pc hpc hfree
    simp [PoolState.lockWorker, hfree] at hpc
  unfold workerStep at hnone
  rw [hw] at hnone
  cases pc with
  | fetch | destruct | died => exact .inl ⟨hlock hnone, rfl⟩
  | blocked notified =>
    cases notified with
    | false => exact .inr (.inl rfl)
    | true => exact .inl ⟨hlock (Option.map_eq_none_iff.mp hnone), rfl⟩
  | finished => exact .inr (.inr rfl)
  | loopTest =>
    simp only at hnone
    split at hnone
    next => split at hnone <;> cases hnone
    next hsome =>
      -- a scheduler that is not empty has a task on top
      obtain ⟨task, htop, -⟩ := policy.tasks_pop (Bool.eq_false_iff.mpr hsome)
      rw [htop] at hnone
      cases hnone
  | firstTest | dying =>
    simp only at hnone
    split at hnone <;> cases hnone
  | replacing =>
    simp only [if_true] at hnone
    split at hnone <;> cases hnone
  | _ => cases hnone

/-- A caller that cannot move waits for the monitor, is out of its calls, or
waits for a notification. -/
theorem stuck_caller (hstuck : Stuck (step policy) Act.ofThread s) (hjoin : JoinInv s) (i : ι) :
    s.monitor ≠ none ∧ (s.caller i).locked = false ∨ s.caller i = .idle ∨
      (∃ timed threshold, s.caller i = .waitBlocked timed threshold false) ∨
      s.caller i = .terminateBlocked false := by
  have hnone : ∀ chosen, callerStep policy s i chosen true = none :=
    fun chosen => hstuck (.caller i chosen true) trivial
  have hlock : ∀ {pc}, s.lockCaller i pc = none → s.monitor ≠ none := by
    intro pc hpc hfree
    simp [PoolState.lockCaller, hfree] at hpc
  have hstep := hnone none
  unfold callerStep at hstep
  cases hpc : s.caller i with
  | idle => exact .inr (.inl rfl)
  | schedule task | clear | wait timed threshold | resize k | terminate join =>
    rw [hpc] at hstep
    exact .inl ⟨hlock hstep, rfl⟩
  | timedOut =>
    rw [hpc] at hstep
    refine .inl ⟨fun hfree => ?_, rfl⟩
    simp [hfree] at hstep
  | waitBlocked timed threshold notified =>
    cases notified with
    | false => exact .inr (.inr (.inl ⟨timed, threshold, rfl⟩))
    | true => rw [hpc] at hstep; exact .inl ⟨hlock hstep, rfl⟩
  | terminateBlocked notified =>
    cases notified with
    | false => exact .inr (.inr (.inr rfl))
    | true => rw [hpc] at hstep; exact .inl ⟨hlock hstep, rfl⟩
  | scheduling task =>
    exfalso
    by_cases hany : s.workers.any WorkerPc.asleep = true
    · -- one of the sleeping workers can be chosen
      obtain ⟨pc, hmem, hasleep⟩ := List.any_eq_true.mp hany
      obtain ⟨v, hv⟩ := List.getElem?_of_mem hmem
      have hchosen := hnone (some v)
      simp only [callerStep, hpc, scheduleStep, hv, Option.any_some, hasleep] at hchosen
      split at hchosen <;> cases hchosen
    · simp only [hpc, scheduleStep, if_neg hany] at hstep
      split at hstep <;> cases hstep
  | joining ws =>
    exfalso
    cases ws with
    | nil => rw [hpc] at hstep; cases hstep
    | cons v ws =>
      obtain ⟨pc, hv, hgone⟩ := hjoin.joining i _ hpc v List.mem_cons_self
      rcases stuck_worker hstuck hv with ⟨-, h⟩ | h | h
      · cases pc with
        | exiting =>
          have hexit := hstuck (.worker v true) trivial
          simp [step, workerStep, hv] at hexit
        | finished => simp [hpc, hv, WorkerPc.ended] at hstep
        | _ => cases hgone
      · rw [h] at hgone
        cases hgone
      · simp [hpc, hv, h, WorkerPc.ended] at hstep
  | resizing =>
    exfalso
    simp only [hpc, if_true] at hstep
    split at hstep <;> cases hstep
  | resizeStart k =>
    exfalso
    simp only [hpc] at hstep
    split at hstep
    next => cases hstep
    next => split at hstep <;> cases hstep
  | waitTest timed threshold | terminating join | terminateTest =>
    exfalso
    simp only [hpc] at hstep
    split at hstep <;> cases hstep
  | clearing => rw [hpc] at hstep; cases hstep

/-- Nobody holds the monitor. -/
theorem stuck_free (hstuck : Stuck (step policy) Act.ofThread s) (hlocks : LockInv s)
    (hjoin : JoinInv s) : s.monitor = none := by
  cases hmonitor : s.monitor with
  | none => rfl
  | some holder =>
    cases holder with
    | caller i =>
      have hlocked := (hlocks.caller i).mpr hmonitor
      rcases stuck_caller hstuck hjoin i with ⟨-, h⟩ | h | ⟨timed, threshold, h⟩ | h
      all_goals rw [h] at hlocked; cases hlocked
    | worker v =>
      obtain ⟨pc, hv⟩ : ∃ pc, s.workers[v]? = some pc :=
        ⟨_, List.getElem?_eq_getElem (hlocks.held v hmonitor)⟩
      have hlocked := (hlocks.worker v pc hv).mpr hmonitor
      rcases stuck_worker hstuck hv with ⟨-, h⟩ | h | h
      all_goals rw [h] at hlocked; cases hlocked

/-- Every worker sleeps or has ended. -/
theorem stuck_workers (h : Reachable (step policy) (PoolState.init policy) s)
    (hstuck : Stuck (step policy) Act.ofThread s) :
    ∀ pc ∈ s.workers, pc = .blocked false ∨ pc = .finished := by
  have hfree := stuck_free hstuck (reachable_lockInv h) (reachable_joinInv h)
  intro pc hpc
  obtain ⟨v, hv⟩ := List.getElem?_of_mem hpc
  rcases stuck_worker hstuck hv with ⟨hheld, -⟩ | h
  · exact absurd hfree hheld
  · exact h

/-- While a worker sleeps, nothing is left to do. -/
theorem stuck_done (h : Reachable (step policy) (PoolState.init policy) s)
    (hstuck : Stuck (step policy) Act.ofThread s) (hasleep : .blocked false ∈ s.workers) :
    policy.tasks s.scheduler = 0 ∧ ∀ i, s.caller i = .idle := by
  have hcount := reachable_countInv h
  have hjoin := reachable_joinInv h
  have hwait := reachable_waitInv h
  have hfree := stuck_free hstuck (reachable_lockInv h) hjoin
  have hworkers := stuck_workers h hstuck
  have hstirs : s.workers.countP WorkerPc.stirs = 0 := by
    refine List.countP_eq_zero.mpr fun pc hpc h => ?_
    rcases hworkers pc hpc with rfl | rfl <;> cases h
  have hcomes : s.workers.countP WorkerPc.comes = 0 :=
    List.countP_eq_zero.mpr fun pc hpc h =>
      List.countP_eq_zero.mp hstirs pc hpc (WorkerPc.stirs_of_comes h)
  have htasks : policy.tasks s.scheduler = 0 := by
    have hcard := (reachable_asleepInv h).enough _ hasleep rfl
    rw [hcomes] at hcard
    exact Multiset.card_eq_zero.mp (Nat.le_zero.mp hcard)
  refine ⟨htasks, fun i => ?_⟩
  rcases stuck_caller hstuck hjoin i with ⟨hheld, -⟩ | hidle | ⟨timed, threshold, hwaits⟩ | hwaits
  · exact absurd hfree hheld
  · exact hidle
  · rcases hwait.wait i timed threshold hwaits with (h | h) | h
    · exact absurd hstirs (Nat.pos_iff_ne_zero.mp h)
    · exact absurd htasks h
    · exact absurd rfl (List.countP_eq_zero.mp h _ hasleep)
  · -- all workers sleep, so none is active
    have hactive := hwait.terminate i hwaits
    have hnone : s.workers.countP WorkerPc.active = 0 := by
      refine List.countP_eq_zero.mpr fun pc hpc h => ?_
      rcases hworkers pc hpc with rfl | rfl <;> cases h
    rw [hcount.active, hnone] at hactive
    cases hactive

/-- **The pool rests only when it is done.** In every reachable state in which
no thread can take a step, whatever was called, resized and thrown, and for any
scheduling policy: every worker sleeps or has ended; and if one is left, no
task is pending and every caller is out of its calls. -/
theorem rests_when_done (h : Reachable (step policy) (PoolState.init policy) s)
    (hstuck : Stuck (step policy) Act.ofThread s) :
    (∀ pc ∈ s.workers, pc = .blocked false ∨ pc = .finished) ∧
      (.blocked false ∈ s.workers →
        policy.tasks s.scheduler = 0 ∧ ∀ i, s.caller i = .idle) :=
  ⟨stuck_workers h hstuck, stuck_done h hstuck⟩

/-- Whoever has returned or waits, sleeps or has ended, takes no step. -/
theorem stuck_of_rest (hcaller : ∀ i, s.caller i = .idle ∨
      ∃ timed threshold, s.caller i = .waitBlocked timed threshold false)
    (hworkers : ∀ pc ∈ s.workers, pc = .blocked false ∨ pc = .finished) :
    Stuck (step policy) Act.ofThread s := by
  have hworker : ∀ w created, workerStep policy s w created = none ∧ throwStep s w = none := by
    intro w created
    unfold workerStep throwStep
    cases hw : s.workers[w]? with
    | none => exact ⟨rfl, rfl⟩
    | some pc => rcases hworkers pc (List.mem_of_getElem? hw) with rfl | rfl <;> exact ⟨rfl, rfl⟩
  intro a ha
  cases a with
  | caller i chosen created =>
    rcases hcaller i with hidle | ⟨timed, threshold, hwait⟩
    · simp only [step, callerStep, hidle]
    · simp only [step, callerStep, hwait]
  | worker w created => exact (hworker w created).1
  | throws w => exact (hworker w true).2
  | call | timeout | spuriousCaller | spuriousWorker => cases ha

theorem rest_of_idle (hcaller : ∀ i, s.caller i = .idle)
    (hworkers : ∀ pc ∈ s.workers, pc = .blocked false ∨ pc = .finished) :
    Stuck (step policy) Act.ofThread s :=
  stuck_of_rest (fun i => .inl (hcaller i)) hworkers

/-- A pool at rest: its worker sleeps, and its caller has waited for it. -/
theorem rests_when_done_one_worker :
    ∃ s : PoolState (List Nat) Nat Unit,
      run (step fifoScheduler) (PoolState.init fifoScheduler) oneWorkerRun = some s ∧
      Stuck (step fifoScheduler) Act.ofThread s ∧ .blocked false ∈ s.workers ∧
      fifoScheduler.tasks s.scheduler = 0 ∧ ∀ i, s.caller i = .idle := by
  have hrun : (run (step fifoScheduler) (PoolState.init fifoScheduler) oneWorkerRun).map
      (fun s => (s.workers, s.caller ())) = some ([.blocked false], .idle) := rfl
  obtain ⟨s, hs, hboth⟩ := Option.map_eq_some_iff.mp hrun
  obtain ⟨hworkers, hcaller⟩ := Prod.mk.inj hboth
  have hstuck : Stuck (step fifoScheduler) Act.ofThread s := by
    refine rest_of_idle (fun i => hcaller) fun pc hpc => .inl ?_
    rw [hworkers] at hpc
    exact List.mem_singleton.mp hpc
  have hasleep : .blocked false ∈ s.workers := by rw [hworkers]; exact List.mem_singleton.mpr rfl
  exact ⟨s, hs, hstuck, hasleep, (rests_when_done ⟨_, hs⟩ hstuck).2 hasleep⟩

end Satf.ThreadPool
