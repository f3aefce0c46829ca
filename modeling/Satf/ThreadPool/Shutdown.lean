import Satf.ThreadPool.Sizes

/-!
# The end of the pool

What a caller can rely on that shuts the pool down.

> `wait_is_barrier`: when `wait(0)` returns and nobody schedules any more, every
> task that was scheduled has ended or been dropped, and none starts later.
>
> `late_starts`: once the flag is set, no worker is created, and each worker
> that was waiting for a task then starts at most one more; no other starts any.
>
> `terminate_returns`: when `terminate_all_workers(true)` returns, no task is
> running, and the thread of every worker that was left when the flag was set
> has ended, or waits for a task.
>
> `terminate_leaves_asleep`: but it has not waited for a worker that was asleep
> when it was called, and may return with all of the pool's workers left.

A worker that is asleep is not active, and `terminate_all_workers` waits for
active workers only.
-/

namespace Satf.ThreadPool

open Satf.Lib

variable {σ τ ι : Type} {policy : SchedulingPolicy σ τ} {s s' : PoolState σ τ ι} {i : ι} {w : Nat}
  {created : Bool} {es : List (Event τ)} {a : Act τ ι} [DecidableEq ι]

/-! ## A barrier -/

/-- The caller is handing a task to the pool. -/
def CallerPc.schedules : CallerPc τ → Bool
  | .schedule _ | .scheduling _ => true
  | _ => false

def Act.schedules : Act τ ι → Bool
  | .call _ (.schedule _) => true
  | _ => false

/-- No task is pending, and nobody is scheduling one. -/
structure Hush (policy : SchedulingPolicy σ τ) (s : PoolState σ τ ι) : Prop where
  tasks : policy.tasks s.scheduler = 0
  caller : ∀ i, (s.caller i).schedules = false

/-- Nor is one running. -/
structure Quiet (policy : SchedulingPolicy σ τ) (s : PoolState σ τ ι) : Prop
    extends Hush policy s where
  worker : ∀ (w : Nat) (pc : WorkerPc τ), s.workers[w]? = some pc → pc.isRunning = false

theorem CallerPc.afterLock_schedules {pc pc' : CallerPc τ} (h : pc.afterLock = some pc') :
    pc'.schedules = pc.schedules := by
  cases pc with
  | waitBlocked timed threshold notified | terminateBlocked notified =>
    cases notified <;> cases h; rfl
  | _ => cases h <;> rfl

theorem CallerPc.notified_schedules (pc : CallerPc τ) :
    pc.notified.schedules = pc.schedules := by
  cases pc <;> rfl

theorem WorkerPc.notified_isRunning (pc : WorkerPc τ) : pc.notified.isRunning = pc.isRunning := by
  cases pc <;> rfl

/-- A caller goes on, and does not schedule. -/
theorem Hush.callerTo (h : Hush policy s) {pc : CallerPc τ}
    (hcaller : s'.caller = Function.update s.caller i pc)
    (htasks : policy.tasks s'.scheduler = 0) (hpc : pc.schedules = false) : Hush policy s' where
  tasks := htasks
  caller := by
    rw [hcaller]
    exact forall_update (P := fun _ pc => pc.schedules = false) h.caller hpc

omit [DecidableEq ι] in
/-- The callers stay where they are. -/
theorem Hush.of_callers (h : Hush policy s) (hscheduler : s'.scheduler = s.scheduler)
    (hcaller : s'.caller = s.caller ∨ s'.caller = fun i => (s.caller i).notified) :
    Hush policy s' where
  tasks := by rw [hscheduler]; exact h.tasks
  caller := by
    rcases hcaller with h' | h'
    · rw [h']
      exact h.caller
    · rw [h']
      exact fun i => (CallerPc.notified_schedules _).trans (h.caller i)

theorem CallerMove.hush (h : CallerMove policy s i created s' es) (hinv : Hush policy s) :
    Hush policy s' ∧ starts es = [] := by
  have hpc := hinv.caller i
  cases h with
  | lock hlock =>
    exact ⟨hinv.callerTo rfl hinv.tasks ((CallerPc.afterLock_schedules hlock).trans hpc), rfl⟩
  | refused hcaller | pushNotify hcaller | push hcaller => rw [hcaller] at hpc; cases hpc
  | cleared => exact ⟨hinv.callerTo rfl policy.tasks_clear rfl, rfl⟩
  | waitBlock | waited | gaveUp | resizeRefused | resizeUp | resized | terminateBlock | startJoin
  | join | joined | resizeDown | terminateJoin | terminate =>
    exact ⟨hinv.callerTo rfl hinv.tasks rfl, rfl⟩
  | create => exact ⟨hinv.of_callers rfl (.inl rfl), rfl⟩

omit [DecidableEq ι] in
theorem WorkerMove.hush (h : WorkerMove policy s w created s' es) (hinv : Hush policy s) :
    Hush policy s' ∧ starts es = [] := by
  cases h with
  | lock | wake | leave | stay | replaced | exit | returned | threw | create =>
    exact ⟨hinv.of_callers rfl (.inl rfl), rfl⟩
  | sleep | destructed | diedTerminating | replace =>
    exact ⟨hinv.of_callers rfl (.inr rfl), rfl⟩
  | take hw hsome =>
    -- there is none to take
    have hempty := (policy.empty_iff s.scheduler).mpr hinv.tasks
    rw [hsome] at hempty
    cases hempty

theorem OtherMove.hush (h : OtherMove s a s') (ha : a.schedules = false) (hinv : Hush policy s) :
    Hush policy s' := by
  cases h with
  | call hcaller call =>
    refine hinv.callerTo rfl hinv.tasks ?_
    cases call with
    | schedule task => cases ha
    | _ => rfl
  | timeout => exact hinv.callerTo rfl hinv.tasks rfl
  | spuriousCaller i =>
    exact hinv.callerTo rfl hinv.tasks ((CallerPc.notified_schedules _).trans (hinv.caller i))
  | spuriousWorker => exact hinv.of_callers rfl (.inl rfl)

theorem Hush.step (h : Hush policy s) (ha : a.schedules = false)
    (hstep : step policy s a = some s') :
    Hush policy s' ∧ starts (events policy s a) = [] := by
  obtain ⟨i, created, hcaller, -⟩ | ⟨w, created, hworker, -⟩ | ⟨hother, hnone⟩ := step_cases hstep
  · exact hcaller.hush h
  · exact hworker.hush h
  · rw [hnone]
    exact ⟨hother.hush ha h, rfl⟩

/-- No worker comes to run a task. -/
theorem Quiet.workers (hinv : Quiet policy s) (hstep : step policy s a = some s') :
    ∀ (w : Nat) (pc : WorkerPc τ), s'.workers[w]? = some pc → pc.isRunning = false := by
  have hnotified := forall_notified (P := fun pc => pc.isRunning = false) fun v pc hv =>
    (WorkerPc.notified_isRunning pc).trans (hinv.worker v pc hv)
  have hset : ∀ {w : Nat} {pc : WorkerPc τ}, pc.isRunning = false → ∀ (v : Nat) pc',
      (s.workers.set w pc)[v]? = some pc' → pc'.isRunning = false :=
    forall_set (P := fun _ (pc : WorkerPc τ) => pc.isRunning = false) hinv.worker
  have hcreate : ∀ (v : Nat) pc, (s.workers ++ [WorkerPc.fetch])[v]? = some pc →
      pc.isRunning = false :=
    forall_concat (P := fun _ (pc : WorkerPc τ) => pc.isRunning = false) hinv.worker rfl
  obtain ⟨i, created, hmove, -⟩ | ⟨w, created, hmove, -⟩ | ⟨hmove, -⟩ := step_cases hstep
  · generalize events policy s a = es at hmove
    cases hmove with
    | pushNotify => exact hset rfl
    | create => exact hcreate
    | resizeDown | terminateJoin | terminate => exact hnotified
    | _ => exact hinv.worker
  · generalize events policy s a = es at hmove
    cases hmove with
    | @lock pc pc' hw hlock =>
      refine hset ?_
      cases pc with
      | fetch | destruct | died => cases hlock; rfl
      | _ => cases hlock
    | take hw hsome =>
      have hempty := (policy.empty_iff s.scheduler).mpr hinv.tasks
      rw [hsome] at hempty
      cases hempty
    | create => exact hcreate
    | _ => exact hset rfl
  · cases hmove with
    | @spuriousWorker w pc hw =>
      exact hset ((WorkerPc.notified_isRunning pc).trans (hinv.worker w pc hw))
    | _ => exact hinv.worker

theorem Quiet.step (h : Quiet policy s) (ha : a.schedules = false)
    (hstep : step policy s a = some s') :
    Quiet policy s' ∧ starts (events policy s a) = [] :=
  have hush := h.toHush.step ha hstep
  ⟨⟨hush.1, h.workers hstep⟩, hush.2⟩

/-- A caller that leaves the loop of `wait(0)` leaves a quiet pool. -/
theorem quiet_of_waited (h : Reachable (step policy) (PoolState.init policy) s)
    {timed : Bool} (hcaller : s.caller i = .waitTest timed 0) {chosen : Option Nat}
    (hstep : step policy s (.caller i chosen created) = some s')
    (hidle : s'.caller i = .idle) (hnobody : ∀ j, (s.caller j).schedules = false) :
    Quiet policy s' := by
  obtain ⟨hle, rfl⟩ := waited_le h hcaller hstep hidle
  have hrunning : s.workers.countP WorkerPc.isRunning = 0 := by omega
  have hcard : (policy.tasks s.scheduler).card = 0 := by omega
  have hush : Hush policy s := ⟨Multiset.card_eq_zero.mp hcard, hnobody⟩
  exact ⟨hush.callerTo rfl hush.tasks rfl, fun w pc hw => Bool.eq_false_iff.mpr
    (List.countP_eq_zero.mp hrunning pc (List.mem_of_getElem? hw))⟩

/-- **`wait(0)` is a barrier.** When a caller leaves the loop of `wait(0)`,
nobody is scheduling a task, and nobody schedules one in the steps that follow,
then none starts in them; and every task scheduled so far has ended, returning
or throwing, or has been dropped by `clear`. -/
theorem wait_is_barrier {as bs : List (Act τ ι)} {t : PoolState σ τ ι}
    (hrun : run (step policy) (PoolState.init policy) as = some s) {timed : Bool}
    (hcaller : s.caller i = .waitTest timed 0) {chosen : Option Nat}
    (hstep : step policy s (.caller i chosen created) = some s') (hidle : s'.caller i = .idle)
    (hnobody : ∀ j, (s.caller j).schedules = false) (hacts : ∀ a ∈ bs, a.schedules = false)
    (hbs : run (step policy) s' bs = some t) :
    starts (history (step policy) (events policy) s' bs) = [] ∧
      let h := poolHistory policy (as ++ .caller i chosen created :: bs)
      scheduledOf h = (ends h).map Prod.snd + droppedOf h := by
  have hafter := quiet_of_waited ⟨as, hrun⟩ hcaller hstep hidle hnobody
  obtain ⟨hend, hnone⟩ := starts_eq_nil hafter hacts hbs fun s a s' h ha hs => h.step ha hs
  refine ⟨hnone, ?_⟩
  have hall : run (step policy) (PoolState.init policy) (as ++ .caller i chosen created :: bs)
      = some t := by
    rw [run_append, hrun]
    simp only [Option.bind_some, run, hstep]
    exact hbs
  have hinv := taskInv_run hall
  have hends : ∀ w, valuesAt w (starts (poolHistory policy (as ++ .caller i chosen created :: bs)))
      = valuesAt w (ends (poolHistory policy (as ++ .caller i chosen created :: bs))) := by
    intro w
    have hnotask : runningOf t.workers w = [] := by
      unfold runningOf
      cases hw : t.workers[w]? with
      | none => rfl
      | some pc =>
        have hpc := hend.worker w pc hw
        cases pc with
        | running => cases hpc
        | _ => rfl
    rw [hinv.running w, hnotask, List.append_nil]
  show scheduledOf (poolHistory policy (as ++ .caller i chosen created :: bs)) = _
  rw [hinv.accounted, hend.tasks, add_zero, Multiset.coe_eq_coe.mpr (perm_of_valuesAt hends)]

/-- The calls of `wait_for_all_tasks::shutdown`, in a run: the second one is made
after the first has returned. -/
def shutdownRun : List (Act Nat Unit) :=
  let caller := .caller () none true
  oneWorkerRun ++ [.call () (.terminateAllWorkers true), caller, caller, caller, caller]

/-- The barrier of a shutdown, after the one task of a run. -/
theorem wait_is_barrier_shutdown :
    ∃ s s' t : PoolState (List Nat) Nat Unit,
      run (step fifoScheduler) (PoolState.init fifoScheduler) (shutdownRun.take 17) = some s ∧
      step fifoScheduler s (.caller () none true) = some s' ∧
      run (step fifoScheduler) s' (shutdownRun.drop 18) = some t ∧ t.caller () = .idle ∧
      starts (history (step fifoScheduler) (events fifoScheduler) s' (shutdownRun.drop 18)) = [] ∧
      let h := poolHistory fifoScheduler
        (shutdownRun.take 17 ++ .caller () none true :: shutdownRun.drop 18)
      scheduledOf h = (ends h).map Prod.snd + droppedOf h := by
  have hrun : (run (step fifoScheduler) (PoolState.init fifoScheduler) (shutdownRun.take 17)).map
      (fun s => (s.caller (), (step fifoScheduler s (.caller () none true)).map fun s' =>
        (s'.caller (), (run (step fifoScheduler) s' (shutdownRun.drop 18)).map fun t =>
          t.caller ())))
      = some (.waitTest false 0, some (.idle, some .idle)) := rfl
  obtain ⟨s, hs, hboth⟩ := Option.map_eq_some_iff.mp hrun
  obtain ⟨hcaller, hnext⟩ := Prod.mk.inj hboth
  obtain ⟨s', hstep, hboth'⟩ := Option.map_eq_some_iff.mp hnext
  obtain ⟨hidle, hrest⟩ := Prod.mk.inj hboth'
  obtain ⟨t, ht, hend⟩ := Option.map_eq_some_iff.mp hrest
  have hacts : ∀ a ∈ shutdownRun.drop 18, a.schedules = false := by decide
  have hnobody : ∀ j, (s.caller j).schedules = false := fun j => by rw [hcaller]; rfl
  exact ⟨s, s', t, hs, hstep, ht, hend,
    wait_is_barrier hs hcaller hstep hidle hnobody hacts ht⟩

/-! ## After the flag is set -/

/-- The worker may start a task without asking first whether it is one too many. -/
def WorkerPc.mayStart : WorkerPc τ → Bool
  | .blocked _ | .loopTest => true
  | _ => false

/-- The workers that started a task. -/
def starters (h : List (Event τ)) : List Nat := (starts h).map Prod.fst

theorem starters_append (h h' : List (Event τ)) :
    starters (h ++ h') = starters h ++ starters h' := by
  rw [starters, starts_append, List.map_append]
  rfl

/-- A step after the flag has been set. -/
structure Late (s s' : PoolState σ τ ι) (es : List (Event τ)) : Prop where
  flag : s'.terminateAllWorkers = true
  length : s'.workers.length = s.workers.length
  still : ∀ (w : Nat) (pc' : WorkerPc τ), s'.workers[w]? = some pc' → pc'.mayStart = true →
    ∃ pc, s.workers[w]? = some pc ∧ pc.mayStart = true
  starts : starters es = [] ∨ ∃ w pc', starters es = [w] ∧ s.workers[w]? = some .loopTest ∧
    s'.workers[w]? = some pc' ∧ pc'.mayStart = false

omit [DecidableEq ι] in
/-- A worker goes on. -/
theorem Late.workerTo {pc pc' : WorkerPc τ} (hflag : s'.terminateAllWorkers = true)
    (hw : s.workers[w]? = some pc) (hworkers : s'.workers = s.workers.set w pc')
    (hpc : pc'.mayStart = true → pc.mayStart = true) (hes : starters es = []) : Late s s' es where
  flag := hflag
  length := by rw [hworkers, List.length_set]
  still := by
    rw [hworkers]
    exact forall_set (P := fun w (pc : WorkerPc τ) => pc.mayStart = true → ∃ pc, _ ∧ _)
      (fun v pc hv h => ⟨pc, hv, h⟩) fun h => ⟨pc, hw, hpc h⟩
  starts := .inl hes

omit [DecidableEq ι] in
theorem Late.of_same (hflag : s'.terminateAllWorkers = true) (hworkers : s'.workers = s.workers)
    (hes : starters es = []) : Late s s' es where
  flag := hflag
  length := by rw [hworkers]
  still := by
    rw [hworkers]
    exact fun w pc hw hpc => ⟨pc, hw, hpc⟩
  starts := .inl hes

omit [DecidableEq ι] in
theorem Late.of_notified (hflag : s'.terminateAllWorkers = true)
    (hworkers : s'.workers = s.workers.map WorkerPc.notified) (hes : starters es = []) :
    Late s s' es where
  flag := hflag
  length := by rw [hworkers, List.length_map]
  still := by
    intro w pc' hw hpc
    rw [hworkers, List.getElem?_map] at hw
    obtain ⟨pc, hpc', rfl⟩ := Option.map_eq_some_iff.mp hw
    exact ⟨pc, hpc', by cases pc <;> exact hpc⟩
  starts := .inl hes

theorem CallerMove.late (h : CallerMove policy s i created s' es) (hsize : SizeInv s)
    (hflag : s.terminateAllWorkers = true) : Late s s' es := by
  cases h with
  | lock | refused | push | cleared | waitBlock | waited | gaveUp | resizeRefused | resized
  | terminateBlock | startJoin | join | joined => exact .of_same hflag rfl rfl
  | pushNotify hcaller hpush hasleep => exact .workerTo hflag hasleep rfl (fun _ => rfl) rfl
  | resizeUp hcaller h | resizeDown hcaller h => exact absurd (hflag.symm.trans h) (by simp)
  | create hcaller =>
    exact absurd (hflag.symm.trans (hsize.caller i (by rw [hcaller]; rfl)).1) (by simp)
  | terminateJoin | terminate => exact .of_notified rfl rfl rfl

omit [DecidableEq ι] in
theorem WorkerMove.late (h : WorkerMove policy s w created s' es) (hsize : SizeInv s)
    (hcount : CountInv s) (hflag : s.terminateAllWorkers = true) : Late s s' es := by
  -- a worker that is left is one too many
  have hmany : ∀ {pc : WorkerPc τ}, s.workers[w]? = some pc → pc.alive = true →
      ¬ s.workerCount ≤ s.targetWorkerCount := by
    intro pc hw halive
    rw [hsize.flag hflag]
    exact Nat.not_le_of_lt (hcount.count_pos hw halive)
  cases h with
  | @lock pc pc' hw hlock =>
    refine .workerTo hflag hw rfl (fun h => ?_) rfl
    cases pc with
    | fetch | destruct | died => cases hlock; cases h
    | _ => cases hlock
  | wake hw => exact .workerTo hflag hw rfl (fun _ => rfl) rfl
  | leave hw | returned hw | threw hw | destructed hw | diedTerminating hw | replaced hw
  | exit hw => exact .workerTo hflag hw rfl (fun h => by cases h) rfl
  | stay hw hfew => exact absurd hfew (hmany hw rfl)
  | sleep hw hempty hfew => exact absurd hfew (hmany hw rfl)
  | @take task hw =>
    have hlt := (List.getElem?_eq_some_iff.mp hw).1
    have hmoved : Late s (s.unlockWorker w (.running task)) ([] : List (Event τ)) :=
      .workerTo hflag hw rfl (fun h => by cases h) rfl
    refine ⟨hflag, hmoved.length, hmoved.still, .inr ⟨w, .running task, rfl, hw, ?_, rfl⟩⟩
    exact List.getElem?_set_self hlt
  | replace hw h => exact absurd (hflag.symm.trans h) (by simp)
  | create hw => exact absurd (hflag.symm.trans (hsize.worker w _ hw rfl).1) (by simp)

theorem OtherMove.late (h : OtherMove s a s') (hflag : s.terminateAllWorkers = true) :
    Late s s' ([] : List (Event τ)) := by
  cases h with
  | call | timeout | spuriousCaller => exact .of_same hflag rfl rfl
  | @spuriousWorker w pc hw =>
    exact .workerTo hflag hw rfl (fun h => by cases pc <;> exact h) rfl

theorem late_step (hreach : Reachable (step policy) (PoolState.init policy) s)
    (hflag : s.terminateAllWorkers = true) (hstep : step policy s a = some s') :
    Late s s' (events policy s a) := by
  have hsize := reachable_sizeInv hreach
  obtain ⟨i, created, hcaller, -⟩ | ⟨w, created, hworker, -⟩ | ⟨hother, hnone⟩ := step_cases hstep
  · exact hcaller.late hsize hflag
  · exact hworker.late hsize (reachable_countInv hreach) hflag
  · rw [hnone]
    exact hother.late hflag

/-- From `s`, where the flag was set, a run has led to `t` with history `h`. -/
structure LateInv (s t : PoolState σ τ ι) (h : List (Event τ)) : Prop where
  flag : t.terminateAllWorkers = true
  length : t.workers.length = s.workers.length
  still : ∀ (w : Nat) (pc' : WorkerPc τ), t.workers[w]? = some pc' → pc'.mayStart = true →
    ∃ pc, s.workers[w]? = some pc ∧ pc.mayStart = true
  once : (starters h).Nodup
  could : ∀ w ∈ starters h, ∃ pc, s.workers[w]? = some pc ∧ pc.mayStart = true
  spent : ∀ w ∈ starters h, ∀ pc, t.workers[w]? = some pc → pc.mayStart = false

omit [DecidableEq ι] in
theorem LateInv.step {t t' : PoolState σ τ ι} {h : List (Event τ)} (hinv : LateInv s t h)
    (hlate : Late t t' es) : LateInv s t' (h ++ es) where
  flag := hlate.flag
  length := hlate.length.trans hinv.length
  still := by
    intro w pc' hw hpc'
    obtain ⟨pc, hpc, hmay⟩ := hlate.still w pc' hw hpc'
    exact hinv.still w pc hpc hmay
  once := by
    rw [starters_append]
    rcases hlate.starts with hnone | ⟨w, pc', hone, hw, -⟩
    · rw [hnone, List.append_nil]
      exact hinv.once
    · -- who starts now has not started before
      have hfresh : w ∉ starters h := fun hmem => by cases hinv.spent w hmem _ hw
      rw [hone]
      exact List.Nodup.append hinv.once (List.nodup_singleton w) (by simpa using hfresh)
  could := by
    intro w hw
    rw [starters_append] at hw
    rcases List.mem_append.mp hw with hw | hw
    · exact hinv.could w hw
    · rcases hlate.starts with hnone | ⟨v, pc', hone, hv, -⟩
      · rw [hnone] at hw
        cases hw
      · rw [hone, List.mem_singleton] at hw
        subst hw
        exact hinv.still w _ hv rfl
  spent := by
    intro w hw pc hpc
    rw [starters_append] at hw
    rcases List.mem_append.mp hw with hw | hw
    · refine Bool.eq_false_iff.mpr fun hmay => ?_
      obtain ⟨pc₀, hpc₀, hmay₀⟩ := hlate.still w pc hpc hmay
      rw [hinv.spent w hw pc₀ hpc₀] at hmay₀
      cases hmay₀
    · rcases hlate.starts with hnone | ⟨v, pc', hone, -, hpc', hnot⟩
      · rw [hnone] at hw
        cases hw
      · rw [hone, List.mem_singleton] at hw
        subst hw
        cases hpc.symm.trans hpc'
        exact hnot

theorem lateInv_run {t : PoolState σ τ ι} {bs : List (Act τ ι)}
    (hreach : Reachable (step policy) (PoolState.init policy) s)
    (hflag : s.terminateAllWorkers = true) (hrun : run (step policy) s bs = some t) :
    LateInv s t (history (step policy) (events policy) s bs) := by
  refine history_invariant ⟨hflag, rfl, fun w pc hw hpc => ⟨pc, hw, hpc⟩, List.nodup_nil,
    fun w hw => (by cases hw), fun w hw => (by cases hw)⟩ ?_ hrun
  intro t h a t' ht hinv hstep
  exact hinv.step (late_step (hreach.trans ht) hinv.flag hstep)

/-- **What starts after the flag is set.** From every reachable state in which
`m_terminate_all_workers` is set, whatever happens then: no worker is created,
every worker starts at most one more task, and only those workers do that were
waiting for one in that state, or about to look for one. -/
theorem late_starts {t : PoolState σ τ ι} {bs : List (Act τ ι)}
    (hreach : Reachable (step policy) (PoolState.init policy) s)
    (hflag : s.terminateAllWorkers = true) (hrun : run (step policy) s bs = some t) :
    t.workers.length = s.workers.length ∧
      (starters (history (step policy) (events policy) s bs)).Nodup ∧
      ∀ w ∈ starters (history (step policy) (events policy) s bs),
        ∃ pc, s.workers[w]? = some pc ∧ pc.mayStart = true :=
  have hinv := lateInv_run hreach hflag hrun
  ⟨hinv.length, hinv.once, hinv.could⟩

/-- A pool whose worker is asleep when it is terminated, without waiting; the
worker still starts a task that is scheduled later. -/
def lateRun : List (Act Nat Unit) :=
  let caller := .caller () none true
  let worker := .worker 0 true
  oneWorkerRun ++ [.call () (.terminateAllWorkers false), caller, caller] ++
    [.call () (.schedule 8), caller, caller, worker, worker]

theorem late_starts_one_worker :
    ∃ s t : PoolState (List Nat) Nat Unit,
      run (step fifoScheduler) (PoolState.init fifoScheduler) (lateRun.take 21) = some s ∧
      run (step fifoScheduler) s (lateRun.drop 21) = some t ∧ t.workers = [.running 8] ∧
      t.workers.length = s.workers.length ∧
      (starters (history (step fifoScheduler) (events fifoScheduler) s (lateRun.drop 21))).Nodup ∧
      ∀ w ∈ starters (history (step fifoScheduler) (events fifoScheduler) s (lateRun.drop 21)),
        ∃ pc, s.workers[w]? = some pc ∧ pc.mayStart = true := by
  have hrun : (run (step fifoScheduler) (PoolState.init fifoScheduler) (lateRun.take 21)).map
      (fun s => (s.terminateAllWorkers,
        (run (step fifoScheduler) s (lateRun.drop 21)).map fun t => t.workers))
      = some (true, some [.running 8]) := rfl
  obtain ⟨s, hs, hboth⟩ := Option.map_eq_some_iff.mp hrun
  obtain ⟨hflag, hrest⟩ := Prod.mk.inj hboth
  obtain ⟨t, ht, hworkers⟩ := Option.map_eq_some_iff.mp hrest
  exact ⟨s, t, hs, ht, hworkers, late_starts ⟨_, hs⟩ hflag ht⟩

/-! ## When `terminate_all_workers` returns -/

/-- The caller has set the flag. -/
def CallerPc.flagged : CallerPc τ → Bool
  | .terminateTest | .terminateBlocked _ | .joining _ => true
  | _ => false

/-- Whoever is joining has seen that no worker is active, and every listed
worker is still to be joined or has ended. -/
structure EndInv (s : PoolState σ τ ι) : Prop where
  flag : ∀ i, (s.caller i).flagged = true → s.terminateAllWorkers = true
  idle : ∀ i ws, s.caller i = .joining ws → s.activeWorkerCount = 0
  joined : ∀ i ws, s.caller i = .joining ws → ∀ w ∈ s.terminatedWorkers,
    w ∈ ws ∨ s.workers[w]? = some .finished

theorem CallerPc.notified_flagged (pc : CallerPc τ) : pc.notified.flagged = pc.flagged := by
  cases pc <;> rfl

theorem CallerPc.notified_joining {pc : CallerPc τ} {ws : List Nat}
    (h : pc.notified = .joining ws) : pc = .joining ws := by
  cases pc <;> first | exact h | cases h

/-- A caller can only move when no other thread holds the monitor. -/
theorem CallerMove.holder (h : CallerMove policy s i created s' es) (hlocks : LockInv s) :
    s.monitor = none ∨ s.monitor = some (.caller i) := by
  cases h with
  | lock hlock hfree | gaveUp hcaller hfree => exact .inl hfree
  | _ hcaller => exact .inr ((hlocks.caller i).mp (by rw [hcaller]; rfl))

theorem CallerMove.frame (h : CallerMove policy s i created s' es) {j : ι} (hj : j ≠ i) :
    s'.caller j = s.caller j := by
  cases h with
  | create => rfl
  | _ => exact Function.update_of_ne hj _ _

/-- How a caller comes to join, or goes on joining. -/
theorem CallerMove.joins (h : CallerMove policy s i created s' es) {ws : List Nat}
    (hi : s'.caller i = .joining ws) :
    s'.workers = s.workers ∧ s'.activeWorkerCount = s.activeWorkerCount ∧
      s'.terminatedWorkers = s.terminatedWorkers ∧
      (s.activeWorkerCount = 0 ∧ ws = s.terminatedWorkers ∨
        ∃ w, s.caller i = .joining (w :: ws) ∧ s.workers[w]?.all WorkerPc.ended = true) := by
  have hself : ∀ {pc : CallerPc τ}, Function.update s.caller i pc i = .joining ws →
      pc = .joining ws := fun h => by rw [Function.update_self] at h; exact h
  cases h with
  | lock hlock =>
    rw [hself hi] at hlock
    exact absurd hlock CallerPc.afterLock_ne_joining
  | startJoin hcaller hidle =>
    cases hself hi
    exact ⟨rfl, rfl, rfl, .inl ⟨hidle, rfl⟩⟩
  | @join w ws' hcaller hended =>
    cases hself hi
    exact ⟨rfl, rfl, rfl, .inr ⟨w, hcaller, hended⟩⟩
  | create hcaller =>
    have hcreating : s.caller i = .joining ws := hi
    rw [hcaller] at hcreating
    cases hcreating
  | _ => cases hself hi

theorem CallerPc.afterLock_flagged {pc pc' : CallerPc τ} (h : pc.afterLock = some pc') :
    pc'.flagged = true → pc.flagged = true := by
  intro hflagged
  cases pc with
  | waitBlocked timed threshold notified | terminateBlocked notified =>
    cases notified <;> cases h
    exact hflagged
  | _ => cases h <;> cases hflagged

theorem CallerMove.endInv (h : CallerMove policy s i created s' es) (hlocks : LockInv s)
    (hjoin : JoinInv s) (hinv : EndInv s) : EndInv s' := by
  -- nobody else is joining while this caller moves
  have hother : ∀ j ws, j ≠ i → s'.caller j ≠ .joining ws := by
    intro j ws hj hjoining
    rw [h.frame hj] at hjoining
    have hheld := (hlocks.caller j).mp (by rw [hjoining]; rfl)
    rcases h.holder hlocks with hfree | hself
    · rw [hfree] at hheld
      cases hheld
    · rw [hself] at hheld
      exact hj (Holder.caller.inj (Option.some.inj hheld)).symm
  refine ⟨?_, ?_, ?_⟩
  · have hquiet : ∀ {pc : CallerPc τ}, (pc.flagged = true → s.terminateAllWorkers = true) →
        ∀ j, (Function.update s.caller i pc j).flagged = true → s.terminateAllWorkers = true :=
      forall_update (P := fun _ pc => pc.flagged = true → _) hinv.flag
    cases h with
    | lock hlock => exact hquiet fun h => hinv.flag i (CallerPc.afterLock_flagged hlock h)
    | refused | pushNotify | push | cleared | waitBlock | waited | gaveUp | resizeRefused | resizeUp
    | resizeDown | resized | joined => exact hquiet fun h => by cases h
    | create => exact hinv.flag
    | terminateJoin | terminate => exact fun _ _ => rfl
    | terminateBlock hcaller | startJoin hcaller | join hcaller =>
      exact hquiet fun _ => hinv.flag i (by rw [hcaller]; rfl)
  · intro j ws hj
    by_cases hji : j = i
    · subst hji
      obtain ⟨-, hactive, -, ⟨hidle, -⟩ | ⟨w, hjoining, -⟩⟩ := h.joins hj
      · rw [hactive]
        exact hidle
      · rw [hactive]
        exact hinv.idle j _ hjoining
    · exact absurd hj (hother j ws hji)
  · intro j ws hj
    by_cases hji : j = i
    · subst hji
      obtain ⟨hworkers, -, hlisted, ⟨-, rfl⟩ | ⟨w, hjoining, hended⟩⟩ := h.joins hj
      · rw [hlisted]
        exact fun w hw => .inl hw
      · rw [hlisted, hworkers]
        intro v hv
        rcases hinv.joined j _ hjoining v hv with hmem | hdone
        · rcases List.mem_cons.mp hmem with rfl | hmem
          · obtain ⟨pc, hpc, -⟩ := hjoin.joining j _ hjoining v List.mem_cons_self
            rw [hpc] at hended
            cases pc with
            | finished => exact .inr hpc
            | _ => cases hended
          · exact .inl hmem
        · exact .inr hdone
    · exact absurd hj (hother j ws hji)

omit [DecidableEq ι] in
/-- The callers stay where they are, and no worker is listed. -/
theorem EndInv.workerTo (hinv : EndInv s) {pc pc' : WorkerPc τ} (hw : s.workers[w]? = some pc)
    (hworkers : s'.workers = s.workers.set w pc') (hcaller : s'.caller = s.caller)
    (hsame : s'.terminateAllWorkers = s.terminateAllWorkers ∧
      s'.activeWorkerCount = s.activeWorkerCount ∧ s'.terminatedWorkers = s.terminatedWorkers)
    (hpc : pc = .finished → pc' = .finished) : EndInv s' where
  flag := by rw [hcaller, hsame.1]; exact hinv.flag
  idle := by rw [hcaller, hsame.2.1]; exact hinv.idle
  joined := by
    rw [hcaller, hsame.2.2, hworkers]
    intro i ws hi v hv
    refine (hinv.joined i ws hi v hv).imp_right fun hdone => ?_
    by_cases hvw : w = v
    · subst hvw
      cases hw.symm.trans hdone
      rw [hpc rfl]
      exact List.getElem?_set_self (List.getElem?_eq_some_iff.mp hw).1
    · rw [List.getElem?_set_ne hvw]
      exact hdone

omit [DecidableEq ι] in
/-- Nobody is joining. -/
theorem EndInv.of_none (hinv : EndInv s) (hnone : ∀ i ws, s.caller i ≠ .joining ws)
    (hcaller : s'.caller = s.caller ∨ s'.caller = fun i => (s.caller i).notified)
    (hflag : s'.terminateAllWorkers = s.terminateAllWorkers) : EndInv s' := by
  have hnone' : ∀ i ws, s'.caller i ≠ .joining ws := by
    intro i ws hi
    rcases hcaller with h | h
    · exact hnone i ws (h ▸ hi)
    · rw [h] at hi
      exact hnone i ws (CallerPc.notified_joining hi)
  refine ⟨fun i hi => ?_, fun i ws hi => absurd hi (hnone' i ws),
    fun i ws hi => absurd hi (hnone' i ws)⟩
  rw [hflag]
  rcases hcaller with h | h
  · exact hinv.flag i (h ▸ hi)
  · rw [h, CallerPc.notified_flagged] at hi
    exact hinv.flag i hi

omit [DecidableEq ι] in
theorem WorkerMove.endInv (h : WorkerMove policy s w created s' es) (hlocks : LockInv s)
    (hinv : EndInv s) : EndInv s' := by
  -- nobody is joining while a worker takes or holds the monitor
  have hfree : s.monitor = none → ∀ i ws, s.caller i ≠ .joining ws := by
    intro hfree i ws hi
    have hheld := (hlocks.caller i).mp (by rw [hi]; rfl)
    rw [hfree] at hheld
    cases hheld
  have hmine : ∀ {pc : WorkerPc τ}, s.workers[w]? = some pc → pc.locked = true →
      ∀ i ws, s.caller i ≠ .joining ws := by
    intro pc hw hlocked i ws hi
    have hheld := (hlocks.caller i).mp (by rw [hi]; rfl)
    rw [(hlocks.worker w pc hw).mp hlocked] at hheld
    cases hheld
  cases h with
  | lock hw hlock h | wake hw h => exact hinv.of_none (hfree h) (.inl rfl) rfl
  | leave hw hpc =>
    exact hinv.of_none (hmine hw (by rcases hpc with rfl | rfl <;> rfl)) (.inl rfl) rfl
  | stay hw | take hw | create hw | replaced hw => exact hinv.of_none (hmine hw rfl) (.inl rfl) rfl
  | sleep hw | destructed hw | diedTerminating hw | replace hw =>
    exact hinv.of_none (hmine hw rfl) (.inr rfl) rfl
  | returned hw | threw hw => exact hinv.workerTo hw rfl rfl ⟨rfl, rfl, rfl⟩ fun h => by cases h
  | exit hw => exact hinv.workerTo hw rfl rfl ⟨rfl, rfl, rfl⟩ fun _ => rfl

theorem OtherMove.endInv (h : OtherMove s a s') (hinv : EndInv s) : EndInv s' := by
  -- the caller that moves is not joining afterwards, unless it was before
  have hcaller : ∀ {i : ι} {pc : CallerPc τ},
      (pc.flagged = true → (s.caller i).flagged = true) →
      (∀ ws, pc = .joining ws → s.caller i = .joining ws) → EndInv (s.atCaller i pc) := by
    intro i pc hflagged hjoining
    have hback : ∀ j ws, Function.update s.caller i pc j = .joining ws →
        s.caller j = .joining ws :=
      forall_update (P := fun j pc => ∀ ws, pc = .joining ws → s.caller j = .joining ws)
        (fun _ _ => id) hjoining
    refine ⟨?_, fun j ws hj => hinv.idle j ws (hback j ws hj),
      fun j ws hj => hinv.joined j ws (hback j ws hj)⟩
    exact forall_update (P := fun _ pc => pc.flagged = true → s.terminateAllWorkers = true)
      hinv.flag fun h => hinv.flag i (hflagged h)
  cases h with
  | call h call =>
    exact hcaller (fun h => by cases call <;> cases h) fun ws h => by cases call <;> cases h
  | timeout => exact hcaller (fun h => by cases h) fun ws h => by cases h
  | spuriousCaller i =>
    exact hcaller (fun h => by rw [← CallerPc.notified_flagged]; exact h)
      fun ws h => CallerPc.notified_joining h
  | spuriousWorker hw =>
    exact hinv.workerTo hw rfl rfl ⟨rfl, rfl, rfl⟩ fun h => by rw [h]; rfl

theorem reachable_endInv (h : Reachable (step policy) (PoolState.init policy) s) : EndInv s := by
  refine h.invariant_along ⟨fun i hi => (by cases hi), fun i ws hi => (by cases hi),
    fun i ws hi => (by cases hi)⟩ ?_
  intro s a s' hreach hinv hstep
  have hlocks := reachable_lockInv hreach
  obtain ⟨i, created, hcaller, -⟩ | ⟨w, created, hworker, -⟩ | ⟨hother, -⟩ := step_cases hstep
  · exact hcaller.endInv hlocks (reachable_joinInv hreach) hinv
  · exact hworker.endInv hlocks hinv
  · exact hother.endInv hinv

/-- The worker has not left, or it can be joined: its thread has ended, or it is
listed. -/
def Joinable (workers : List (WorkerPc τ)) (listed : List Nat) (w : Nat) : Prop :=
  ∃ pc, workers[w]? = some pc ∧ (pc.alive = true ∨ pc = .finished ∨ w ∈ listed)

omit [DecidableEq ι] in
/-- A worker goes on from `pc` to `pc'`, and stays joinable. -/
theorem Joinable.set {workers : List (WorkerPc τ)} {listed listed' : List Nat} {v : Nat}
    (h : Joinable workers listed v) {pc pc' : WorkerPc τ} (hw : workers[w]? = some pc)
    (hlisted : ∀ v ∈ listed, v ∈ listed')
    (hpc : pc.alive = true ∨ pc = .finished → pc'.alive = true ∨ pc' = .finished ∨ w ∈ listed') :
    Joinable (workers.set w pc') listed' v := by
  obtain ⟨pcv, hv, hjoinable⟩ := h
  by_cases hwv : w = v
  · subst hwv
    cases hw.symm.trans hv
    refine ⟨pc', List.getElem?_set_self (List.getElem?_eq_some_iff.mp hw).1, ?_⟩
    rcases hjoinable with halive | hfinished | hmem
    · exact hpc (.inl halive)
    · exact hpc (.inr hfinished)
    · exact .inr (.inr (hlisted w hmem))
  · rw [← List.getElem?_set_ne hwv] at hv
    exact ⟨pcv, hv, hjoinable.imp_right (Or.imp_right (hlisted v))⟩

omit [DecidableEq ι] in
theorem Joinable.notified {workers : List (WorkerPc τ)} {listed : List Nat} {v : Nat}
    (h : Joinable workers listed v) : Joinable (workers.map WorkerPc.notified) listed v := by
  obtain ⟨pc, hv, hjoinable⟩ := h
  refine ⟨pc.notified, by rw [List.getElem?_map, hv]; rfl, ?_⟩
  refine hjoinable.imp (fun halive => ?_) (Or.imp_left fun hfinished => ?_)
  · rw [WorkerPc.notified_alive]
    exact halive
  · rw [hfinished]
    rfl

theorem CallerMove.joinable (h : CallerMove policy s i created s' es) (hsize : SizeInv s)
    (hend : EndInv s) (hflag : s.terminateAllWorkers = true) {v : Nat}
    (hinv : Joinable s.workers s.terminatedWorkers v) :
    Joinable s'.workers s'.terminatedWorkers v := by
  cases h with
  | lock | refused | push | cleared | waitBlock | waited | gaveUp | resizeRefused | resized
  | terminateBlock | startJoin | join => exact hinv
  | pushNotify hcaller hpush hasleep => exact hinv.set hasleep (fun _ => id) fun _ => .inl rfl
  | resizeUp hcaller h | resizeDown hcaller h => exact absurd (hflag.symm.trans h) (by simp)
  | create hcaller =>
    exact absurd (hflag.symm.trans (hsize.caller i (by rw [hcaller]; rfl)).1) (by simp)
  | terminateJoin | terminate => exact hinv.notified
  | joined hcaller =>
    -- the list is cleared when all of it has been joined
    obtain ⟨pc, hv, halive | hfinished | hmem⟩ := hinv
    · exact ⟨pc, hv, .inl halive⟩
    · exact ⟨pc, hv, .inr (.inl hfinished)⟩
    · rcases hend.joined i [] hcaller v hmem with hnone | hdone
      · cases hnone
      · exact ⟨.finished, hdone, .inr (.inl rfl)⟩

omit [DecidableEq ι] in
/-- A worker that leaves is listed, since the flag is set. -/
theorem WorkerMove.joinable (h : WorkerMove policy s w created s' es) (hsize : SizeInv s)
    (hflag : s.terminateAllWorkers = true) {v : Nat}
    (hinv : Joinable s.workers s.terminatedWorkers v) :
    Joinable s'.workers s'.terminatedWorkers v := by
  cases h with
  | lock hw hlock =>
    obtain ⟨-, -, -, halive, -⟩ := WorkerPc.afterLock_same hlock
    exact hinv.set hw (fun _ => id) fun _ => .inl halive
  | leave hw | returned hw | threw hw | stay hw | sleep hw | take hw | wake hw =>
    exact hinv.set hw (fun _ => id) fun _ => .inl rfl
  | destructed hw =>
    show Joinable _ (if s.terminateAllWorkers then s.terminatedWorkers ++ [w] else _) v
    rw [if_pos hflag]
    exact hinv.set hw (fun _ => List.mem_append_left _) fun _ => .inr (.inr (by simp))
  | diedTerminating hw =>
    exact hinv.set hw (fun _ => List.mem_append_left _) fun _ => .inr (.inr (by simp))
  | replace hw h => exact absurd (hflag.symm.trans h) (by simp)
  | create hw | replaced hw =>
    exact absurd (hflag.symm.trans (hsize.worker w _ hw rfl).1) (by simp)
  | exit hw => exact hinv.set hw (fun _ => id) fun _ => .inr (.inl rfl)

theorem OtherMove.joinable (h : OtherMove s a s') {v : Nat}
    (hinv : Joinable s.workers s.terminatedWorkers v) :
    Joinable s'.workers s'.terminatedWorkers v := by
  cases h with
  | call | timeout | spuriousCaller => exact hinv
  | @spuriousWorker w pc hw =>
    refine hinv.set hw (fun _ => id) fun hpc => ?_
    rcases hpc with halive | rfl
    · exact .inl ((WorkerPc.notified_alive pc).trans halive)
    · exact .inr (.inl rfl)

/-- Whoever had not left when the flag was set is joinable from then on. -/
theorem joinable_run {t : PoolState σ τ ι} {w : Nat} {pc : WorkerPc τ}
    (hreach : Reachable (step policy) (PoolState.init policy) s)
    (hflag : s.terminateAllWorkers = true) (hw : s.workers[w]? = some pc) (halive : pc.alive = true)
    (h : Reachable (step policy) s t) :
    t.terminateAllWorkers = true ∧ Joinable t.workers t.terminatedWorkers w := by
  refine @Reachable.invariant_along _ _ (step policy) (fun t : PoolState σ τ ι =>
    t.terminateAllWorkers = true ∧ Joinable t.workers t.terminatedWorkers w) s t h
    ⟨hflag, pc, hw, .inl halive⟩ ?_
  intro t a t' ht hinv hstep
  obtain ⟨hset, hjoinable⟩ := hinv
  have hall := hreach.trans ht
  refine ⟨(late_step hall hset hstep).flag, ?_⟩
  obtain ⟨i, created, hcaller, -⟩ | ⟨v, created, hworker, -⟩ | ⟨hother, -⟩ := step_cases hstep
  · exact hcaller.joinable (reachable_sizeInv hall) (reachable_endInv hall) hset hjoinable
  · exact hworker.joinable (reachable_sizeInv hall) hset hjoinable
  · exact hother.joinable hjoinable

/-- **What `terminate_all_workers(true)` guarantees.** When it returns, no
worker is active, so that no task is running; and of every worker that was left
in a state since the flag was set, the thread has ended, or it waits for a task.
Whatever happens then, only the workers that wait start one, and each at most
one. -/
theorem terminate_returns {t : PoolState σ τ ι}
    (hreach : Reachable (step policy) (PoolState.init policy) t)
    (hflag : t.terminateAllWorkers = true) (h : Reachable (step policy) t s)
    (hcaller : s.caller i = .joining []) {chosen : Option Nat}
    (hstep : step policy s (.caller i chosen created) = some s') :
    s'.caller i = .idle ∧ (∀ pc ∈ s'.workers, pc.active = false) ∧
      (∀ (w : Nat) (pc : WorkerPc τ), t.workers[w]? = some pc → pc.alive = true →
        s'.workers[w]? = some .finished ∨ ∃ notified, s'.workers[w]? = some (.blocked notified)) ∧
      ∀ (bs : List (Act τ ι)) (u : PoolState σ τ ι), run (step policy) s' bs = some u →
        (starters (history (step policy) (events policy) s' bs)).Nodup ∧
        ∀ w ∈ starters (history (step policy) (events policy) s' bs),
          ∃ notified, s'.workers[w]? = some (.blocked notified) := by
  have hall := hreach.trans h
  have hinv := reachable_endInv hall
  have hafter := hall.step hstep
  simp only [step, callerStep, hcaller, Option.some.injEq] at hstep
  subst hstep
  have hactive : ∀ pc ∈ s.workers, pc.active = false := by
    have hzero := hinv.idle i [] hcaller
    rw [(reachable_countInv hall).active] at hzero
    exact fun pc hpc => Bool.eq_false_iff.mpr (List.countP_eq_zero.mp hzero pc hpc)
  refine ⟨Function.update_self _ _ _, hactive, fun w pc hw halive => ?_, fun bs u hrun => ?_⟩
  · obtain ⟨-, pc', hw', halive' | rfl | hmem⟩ := joinable_run hreach hflag hw halive h
    · -- it is not active, so it sleeps
      have hidle := hactive pc' (List.mem_of_getElem? hw')
      cases pc' with
      | blocked notified => exact .inr ⟨notified, hw'⟩
      | _ => exact absurd (hidle.symm.trans halive') (by simp)
    · exact .inl hw'
    · exact .inl ((hinv.joined i [] hcaller w hmem).resolve_left List.not_mem_nil)
  · have hlate := lateInv_run hafter (hinv.flag i (by rw [hcaller]; rfl)) hrun
    refine ⟨hlate.once, fun w hw => ?_⟩
    obtain ⟨pc, hpc, hmay⟩ := hlate.could w hw
    cases pc with
    | blocked notified => exact ⟨notified, hpc⟩
    | loopTest => cases hactive _ (List.mem_of_getElem? hpc)
    | _ => cases hmay

/-- A pool of two workers that is terminated while one of them runs a task: that
one is joined, the other one is still asleep when the call returns. -/
def joiningRun : List (Act Nat Unit) :=
  let caller := .caller () none true
  let worker := fun w => .worker w true
  [.call () (.resize 2), caller, caller, caller, caller, caller] ++
    [worker 0, worker 0, worker 0, worker 1, worker 1, worker 1] ++
    [.call () (.schedule 7), caller, .caller () (some 0) true, worker 0, worker 0] ++
    [.call () (.terminateAllWorkers true), caller, caller] ++
    [caller, worker 0, worker 0, worker 0, worker 0, worker 0, worker 0] ++
    [caller, caller, caller, caller]

/-- The end of that run. -/
theorem terminate_returns_joining :
    ∃ t s s' : PoolState (List Nat) Nat Unit,
      run (step fifoScheduler) (PoolState.init fifoScheduler) (joiningRun.take 20) = some t ∧
      t.workers = [.running 7, .blocked true] ∧
      run (step fifoScheduler) t ((joiningRun.drop 20).take 10) = some s ∧
      step fifoScheduler s (.caller () none true) = some s' ∧
      s'.workers = [.finished, .blocked true] ∧
      s'.caller () = .idle ∧ (∀ pc ∈ s'.workers, pc.active = false) ∧
      (∀ (w : Nat) (pc : WorkerPc Nat), t.workers[w]? = some pc → pc.alive = true →
        s'.workers[w]? = some .finished ∨ ∃ notified, s'.workers[w]? = some (.blocked notified)) ∧
      ∀ (bs : List (Act Nat Unit)) (u : PoolState (List Nat) Nat Unit),
        run (step fifoScheduler) s' bs = some u →
        (starters (history (step fifoScheduler) (events fifoScheduler) s' bs)).Nodup ∧
        ∀ w ∈ starters (history (step fifoScheduler) (events fifoScheduler) s' bs),
          ∃ notified, s'.workers[w]? = some (.blocked notified) := by
  have hrun : ∃ t s s' : PoolState (List Nat) Nat Unit,
      run (step fifoScheduler) (PoolState.init fifoScheduler) (joiningRun.take 20) = some t ∧
      (t.terminateAllWorkers = true ∧ t.workers = [.running 7, .blocked true]) ∧
      run (step fifoScheduler) t ((joiningRun.drop 20).take 10) = some s ∧
      s.caller () = .joining [] ∧
      step fifoScheduler s (.caller () none true) = some s' ∧
      s'.workers = [.finished, .blocked true] :=
    ⟨_, _, _, rfl, ⟨rfl, rfl⟩, rfl, rfl, rfl, rfl⟩
  obtain ⟨t, s, s', ht, ⟨hflag, hworkers⟩, hs, hcaller, hstep, hend⟩ := hrun
  exact ⟨t, s, s', ht, hworkers, hs, hstep, hend,
    terminate_returns ⟨_, ht⟩ hflag ⟨_, hs⟩ hcaller hstep⟩

/-- Caller `i` has terminated an idle pool of `n` sleeping workers, and has no
worker to join. -/
def terminatedPool (policy : SchedulingPolicy σ τ) (i : ι) (n : Nat) : PoolState σ τ ι :=
  { (idlePool policy n 0 0 (List.replicate n (.blocked true)) : PoolState σ τ ι) with
    terminateAllWorkers := true
    monitor := some (.caller i)
    caller := Function.update (fun _ => .idle) i (.joining []) }

/-- **It does not wait for workers that are asleep.** For any scheduling policy
and every `n` there is a run in which `terminate_all_workers(true)` is called on
an idle pool of `n` workers and returns with all of them left. -/
theorem terminate_leaves_asleep (policy : SchedulingPolicy σ τ) (i : ι) (n : Nat) :
    ∃ s s' : PoolState σ τ ι, Reachable (step policy) (PoolState.init policy) s ∧
      s.caller i = .joining [] ∧ step policy s (.caller i none true) = some s' ∧
      s'.caller i = .idle ∧ s'.workerCount = n ∧ s'.workers = List.replicate n (.blocked true) := by
  have hterminate : Reachable (step policy) (asleepPool policy n) (terminatedPool policy i n) := by
    -- no worker is active, so the call does not wait for any
    refine ⟨[.call i (.terminateAllWorkers true), .caller i none true, .caller i none true,
      .caller i none true], ?_⟩
    simp [run, step, callStep, callerStep, terminatedPool, asleepPool, idlePool,
      PoolState.lockCaller, PoolState.atCaller, Call.start, PoolState.notifyAllTasks,
      WorkerPc.notified]
  have hcaller : (terminatedPool policy i n).caller i = .joining [] := by simp [terminatedPool]
  refine ⟨terminatedPool policy i n,
    { (terminatedPool policy i n).unlockCaller i .idle with terminatedWorkers := [] },
    (reachable_asleep policy i n).trans hterminate, hcaller, ?_, Function.update_self _ _ _, rfl,
    rfl⟩
  simp only [step, callerStep, hcaller]

end Satf.ThreadPool
