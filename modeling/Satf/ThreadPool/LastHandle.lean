import Satf.ThreadPool.Handles

/-!
# When a shutdown returns

The thread that destroys the last handle makes the calls of the shutdown policy.
`terminate_all_workers` waits for active workers only, and a worker does not
stay active; so what may keep the thread forever is `wait(0)`, before the pool
is terminated.

> `shutdown_returns`: where no thread can take a step and no handle is left, the
> calls have returned if and only if no task is pending. Otherwise the policy is
> `wait_for_all_tasks`, and the pool has lost its workers; and that does not
> happen to a pool that was never made smaller.

While the last call waits, nobody else uses the pool, so that nobody clears its
scheduler; `WaitsFor` is the invariant that there is something to wait for.
-/

namespace Satf.ThreadPool

open Satf.Lib

variable {σ τ ι : Type}

/-! ## Waiting for the pool -/

section
variable [DecidableEq ι] {policy : SchedulingPolicy σ τ} {s s' : PoolState σ τ ι} {i j : ι}
  {a : Act τ ι} {es : List (Event τ)} {created : Bool} {w : Nat}

theorem CallerMove.stirring (h : CallerMove policy s i created s' es)
    (hnot : s.caller i ≠ .clearing) (hs : Stirring policy s) : Stirring policy s' := by
  cases h with
  | lock | refused | waitBlock | waited | gaveUp | resizeRefused | resizeUp | resized
  | terminateBlock | startJoin | join | joined => exact hs
  | pushNotify hcaller hpush | push hcaller hpush => exact stirring_of_push hpush rfl
  | cleared hcaller => exact absurd hcaller hnot
  | resizeDown | terminateJoin | terminate => exact stirring_of_notifiedAll rfl rfl hs
  | create => exact stirring_create

omit [DecidableEq ι] in
/-- A worker that leaves less to come notifies all callers. -/
theorem WorkerMove.stirring (h : WorkerMove policy s w created s' es) :
    (s'.caller = fun i => (s.caller i).notified) ∨
      s'.caller = s.caller ∧ (Stirring policy s → Stirring policy s') := by
  cases h with
  | lock hw hlock =>
    exact .inr ⟨rfl, fun _ => .inl (stirs_set hw (WorkerPc.afterLock_stirs hlock))⟩
  | wake hw | leave hw | stay hw | take hw | returned hw | threw hw =>
    exact .inr ⟨rfl, fun _ => .inl (stirs_set hw rfl)⟩
  | sleep | destructed | diedTerminating | replace => exact .inl rfl
  | create => exact .inr ⟨rfl, fun _ => stirring_create⟩
  | replaced hw | exit hw => exact .inr ⟨rfl, stirring_of_gone hw rfl rfl rfl rfl⟩

/-- The caller has something to wait for, where it waits without a
notification. -/
def WaitsFor (policy : SchedulingPolicy σ τ) (s : PoolState σ τ ι) (i : ι) : Prop :=
  ∀ timed threshold, s.caller i = .waitBlocked timed threshold false → Stirring policy s

theorem waits_update {pc : CallerPc τ} (hinv : WaitsFor policy s i)
    (hpc : ∀ timed threshold, pc ≠ .waitBlocked timed threshold false) :
    WaitsFor policy (s.atCaller j pc) i := by
  intro timed threshold hwait
  have hwait' : Function.update s.caller j pc i = .waitBlocked timed threshold false := hwait
  by_cases hj : i = j
  · subst hj
    rw [Function.update_self] at hwait'
    exact absurd hwait' (hpc timed threshold)
  · rw [Function.update_of_ne hj] at hwait'
    exact hinv timed threshold hwait'

theorem CallerMove.waits (h : CallerMove policy s i created s' es) (hcount : CountInv s) :
    WaitsFor policy s' i := by
  intro timed threshold hwait
  have hself : ∀ {pc : CallerPc τ},
      Function.update s.caller i pc i = .waitBlocked timed threshold false →
      pc = .waitBlocked timed threshold false :=
    fun h => by rw [Function.update_self] at h; exact h
  cases h with
  | waitBlock hcaller hbusy => exact stirring_of_busy hcount hbusy
  | lock hlock =>
    rw [hself hwait] at hlock
    exact absurd (CallerPc.afterLock_locked hlock).2 (by simp [CallerPc.locked])
  | create hcaller =>
    have hwait' : s.caller i = .waitBlocked timed threshold false := hwait
    cases hcaller.symm.trans hwait'
  | _ => cases hself hwait

/-- As long as nobody else clears the scheduler, it keeps something to wait
for. -/
theorem waits_step (hcount : CountInv s) (hclear : ∀ j, s.caller j = .clearing → j = i)
    (hinv : WaitsFor policy s i) (h : step policy s a = some s') : WaitsFor policy s' i := by
  obtain ⟨j, created, hmove, -⟩ | ⟨w, created, hmove, -⟩ | ⟨hmove, -⟩ := step_cases h
  · by_cases hj : i = j
    · subst hj
      exact hmove.waits hcount
    · intro timed threshold hwait
      rw [hmove.frame hj] at hwait
      exact hmove.stirring (fun h => hj (hclear j h).symm) (hinv timed threshold hwait)
  · intro timed threshold hwait
    rcases hmove.stirring with hall | ⟨hsame, hstirring⟩
    · rw [hall] at hwait
      exact absurd hwait (CallerPc.notified_awake.1 _ _)
    · rw [hsame] at hwait
      exact hstirring (hinv timed threshold hwait)
  · cases hmove with
    | call hcaller call => exact waits_update hinv fun _ _ h => by cases call <;> cases h
    | timeout => exact waits_update hinv fun _ _ h => by cases h
    | spuriousCaller j => exact waits_update hinv CallerPc.notified_awake.1
    | @spuriousWorker w pc hw =>
      intro timed threshold hwait
      cases hstirs : pc.notified.stirs with
      | true => exact .inl (stirs_set hw hstirs)
      | false =>
        have hgone : pc.alive = false := by cases pc <;> first | rfl | cases hstirs
        exact stirring_of_gone hw hgone (by rw [WorkerPc.notified_alive, hgone]) rfl rfl
          (hinv timed threshold hwait)

end

/-! ## Every run -/

section
variable [DecidableEq ι] {policy : SchedulingPolicy σ τ} {calls : List (Call τ)}
  {s s' : HandleState σ τ ι} {i j : ι} {n : Nat} {a : HandleAct τ ι}

/-- The thread that shuts the pool down has something to wait for. -/
theorem reachable_waits (hcalls : ∀ c ∈ calls, c.ofShutdown = true)
    (h : Reachable (handleStep policy calls) (HandleState.init policy i n) s) :
    ∀ j rest, s.shutdown = some (j, rest) → WaitsFor policy s.core j := by
  refine @Reachable.invariant_along _ _ _ (fun s : HandleState σ τ ι =>
    ∀ j rest, s.shutdown = some (j, rest) → WaitsFor policy s.core j) _ _ h
    (fun j rest h => by cases h) ?_
  intro s a s' hreach hwaits hstep j rest hshutdown
  have hinv := reachable_handleInv hcalls hreach
  have hcount := reachable_countInv (core_reachable hreach)
  have hclear : ∀ {j rest}, s.shutdown = some (j, rest) →
      ∀ v, s.core.caller v = .clearing → v = j :=
    fun h v hv => hinv.user h (by rw [hv]; rfl)
  cases handleStep_move hstep with
  | copy => exact hwaits j rest hshutdown
  | destroy hu hidle =>
    have hlast : (if s.handles.erase _ = [] then some (_, calls) else none) = some (j, rest) :=
      hshutdown
    split at hlast
    next =>
      cases hlast
      intro timed threshold hwait
      cases hidle.symm.trans hwait
    next => cases hlast
  | call hu =>
    have hnone := hinv.no_shutdown hu
    cases hnone.symm.trans hshutdown
  | resize => exact waits_update (hwaits j rest hshutdown) fun _ _ h => by cases h
  | @next u c rest' hnext hidle =>
    cases hshutdown
    exact waits_update (hwaits j _ hnext) fun _ _ h => by cases c <;> cases h
  | core hb hcore =>
    exact waits_step hcount (hclear hshutdown) (hwaits j rest hshutdown) hcore

/-! ## Where no thread can move -/

/-- The shutdown has made all its calls, and they have returned. -/
def HandleState.Returned (s : HandleState σ τ ι) : Prop :=
  ∃ j, s.shutdown = some (j, []) ∧ s.core.caller j = .idle

/-- Steps that a thread takes of its own. -/
def HandleAct.ofThread : HandleAct τ ι → Prop
  | .next => True
  | .core a => a.ofThread
  | _ => False

theorem core_stuck (hstuck : Stuck (handleStep policy calls) HandleAct.ofThread s) :
    Stuck (step policy) Act.ofThread s.core := by
  intro b hb
  have h := hstuck (.core b) hb
  have hnot : b.isCall = false := by
    cases b with
    | call => exact hb.elim
    | _ => rfl
  simp only [handleStep, hnot, Bool.false_eq_true, if_false] at h
  exact Option.map_eq_none_iff.mp h

/-- The steps of the threads are those in calls, and the next call of a
shutdown. -/
theorem stuck_of_core (hcore : Stuck (step policy) Act.ofThread s.core)
    (hnext : handleStep policy calls s .next = none) :
    Stuck (handleStep policy calls) HandleAct.ofThread s := by
  intro a ha
  cases a with
  | next => exact hnext
  | core b => simp [handleStep, hcore b ha]
  | copy | destroy | call | resize => exact ha.elim

/-- The thread that shuts the pool down has returned from its last call, or it
waits for tasks that are pending. -/
theorem stuck_shutdown (hcalls : ∀ c ∈ calls, c.ofShutdown = true)
    (hreach : Reachable (handleStep policy calls) (HandleState.init policy i n) s)
    (hstuck : Stuck (handleStep policy calls) HandleAct.ofThread s) (hempty : s.handles = []) :
    s.Returned ∨ policy.tasks s.core.scheduler ≠ 0 ∧ ∃ j rest timed threshold,
      s.shutdown = some (j, rest) ∧ s.core.caller j = .waitBlocked timed threshold false := by
  have hcore := core_reachable hreach
  have hpool := core_stuck hstuck
  have hjoin := reachable_joinInv hcore
  have hworkers := stuck_workers hcore hpool
  have hnone : ∀ {P : WorkerPc τ → Bool}, P (.blocked false) = false → P .finished = false →
      s.core.workers.countP P = 0 := by
    intro P hblocked hfinished
    refine List.countP_eq_zero.mpr fun pc hpc h => ?_
    rcases hworkers pc hpc with rfl | rfl
    · rw [hblocked] at h
      cases h
    · rw [hfinished] at h
      cases h
  have hsome := (reachable_handleInv hcalls hreach).last.mp hempty
  obtain ⟨⟨j, rest⟩, hshutdown⟩ := Option.ne_none_iff_exists'.mp hsome
  rcases stuck_caller hpool hjoin j with ⟨hheld, -⟩ | hidle | ⟨timed, threshold, hwait⟩ | hwait
  · exact absurd (stuck_free hpool (reachable_lockInv hcore) hjoin) hheld
  · -- otherwise it could make its next call
    cases rest with
    | nil => exact .inl ⟨j, hshutdown, hidle⟩
    | cons call rest =>
      have h := hstuck .next trivial
      simp [handleStep, hshutdown, step, callStep, hidle] at h
  · refine .inr ⟨?_, j, rest, timed, threshold, hshutdown, hwait⟩
    rcases reachable_waits hcalls hreach j rest hshutdown timed threshold hwait with h | h
    · rw [hnone rfl rfl] at h
      cases h
    · exact h
  · -- no worker is active
    have hactive := (reachable_waitInv hcore).terminate j hwait
    rw [(reachable_countInv hcore).active, hnone rfl rfl] at hactive
    cases hactive

omit [DecidableEq ι] in
/-- Of the policies, only `wait_for_all_tasks` waits for tasks. -/
theorem waits_of_split (hcalls : calls ∈ shutdownPolicies) {core : PoolState σ τ ι}
    {earlier rest : List (Call τ)} {threshold : Nat}
    (hsplit : calls = earlier ++ [.wait threshold] ++ rest)
    (hdone : ∀ c ∈ earlier, c.Done policy core) (htasks : policy.tasks core.scheduler ≠ 0) :
    calls = waitForAllTasks ∧ threshold = 0 ∧ rest = [.terminateAllWorkers true] := by
  simp only [shutdownPolicies, List.mem_cons, List.not_mem_nil, or_false] at hcalls
  cases earlier with
  | nil =>
    rcases hcalls with rfl | rfl | rfl <;> cases hsplit
    exact ⟨rfl, rfl, rfl⟩
  | cons c earlier =>
    have hfirst := hdone c List.mem_cons_self
    rcases hcalls with rfl | rfl | rfl
    · -- `wait(0)` is the first call
      rw [waitForAllTasks, List.append_assoc, List.cons_append, List.cons.injEq] at hsplit
      cases earlier with
      | nil => cases hsplit.2
      | cons c' earlier => cases earlier <;> cases hsplit.2
    · obtain rfl : .clear = c := (List.cons.inj hsplit).1
      exact absurd (Hush.tasks hfirst) htasks
    · obtain rfl : .clear = c := (List.cons.inj hsplit).1
      exact absurd (Hush.tasks hfirst) htasks

/-- Where it waits, the policy is `wait_for_all_tasks`, and no worker is left. -/
theorem stuck_waits (hcalls : calls ∈ shutdownPolicies)
    (hreach : Reachable (handleStep policy calls) (HandleState.init policy i n) s)
    (hstuck : Stuck (handleStep policy calls) HandleAct.ofThread s) {rest : List (Call τ)}
    {timed : Bool} {threshold : Nat} (htasks : policy.tasks s.core.scheduler ≠ 0)
    (hshutdown : s.shutdown = some (j, rest))
    (hwait : s.core.caller j = .waitBlocked timed threshold false) :
    calls = waitForAllTasks ∧ (s.shutdown = some (j, [.terminateAllWorkers true]) ∧
      s.core.caller j = .waitBlocked false 0 false) ∧ ∀ pc ∈ s.core.workers, pc = .finished := by
  have hcore := core_reachable hreach
  have hpool := core_stuck hstuck
  have hinv := reachable_handleInv (ofShutdown_of_mem hcalls) hreach
  obtain ⟨made, hsplit, ⟨hnot, -⟩ | ⟨earlier, c, rfl, hat, hdone⟩⟩ := hinv.made j rest hshutdown
  · rw [hwait] at hnot
    cases hnot
  · rw [hwait] at hat
    cases c with
    | wait k =>
      obtain ⟨rfl, rfl⟩ := hat
      obtain ⟨hall, rfl, rfl⟩ := waits_of_split hcalls hsplit hdone htasks
      refine ⟨hall, ⟨hshutdown, hwait⟩, fun pc hpc => ?_⟩
      rcases stuck_workers hcore hpool pc hpc with rfl | h
      · exact absurd (stuck_done hcore hpool hpc).1 htasks
      · exact h
    | _ => cases hat

/-! ## A pool that is never made smaller -/

/-- A step that does not make the pool smaller; the shutdown's own calls are
left to it. -/
def HandleAct.grows (s : HandleState σ τ ι) : HandleAct τ ι → Bool
  | .core a => growing s.core a
  | _ => true

/-- The sizes that an action asks for. -/
def HandleAct.asks : HandleAct τ ι → List Nat
  | .resize _ workerCount => [workerCount]
  | _ => []

omit [DecidableEq ι] in
theorem asks_of_isCall {b : Act τ ι} (hb : b.isCall = false) : b.asks = [] := by
  cases b with
  | call => cases hb
  | _ => rfl

omit [DecidableEq ι] in
/-- `terminate_all_workers` is the last call of each policy. -/
theorem last_call (hcalls : calls ∈ shutdownPolicies) {made rest : List (Call τ)} {join : Bool}
    (hsplit : calls = made ++ .terminateAllWorkers join :: rest) : rest = [] := by
  by_contra hrest
  have hmem : .terminateAllWorkers join ∈ calls.dropLast := by
    rw [hsplit, List.dropLast_append_cons, List.dropLast_cons_of_ne_nil hrest]
    simp
  simp only [shutdownPolicies, List.mem_cons, List.not_mem_nil, or_false] at hcalls
  rcases hcalls with rfl | rfl | rfl <;>
    simp [waitForAllTasks, waitForActiveTasks, immediately] at hmem

/-- Until the pool is terminated, it is one that is never made smaller. -/
theorem grownTo_handles (hcalls : calls ∈ shutdownPolicies) {as : List (HandleAct τ ι)}
    (hmeets : Meets (handleStep policy calls) (fun s a => HandleAct.grows s a = true)
      (HandleState.init policy i n) as)
    (hrun : run (handleStep policy calls) (HandleState.init policy i n) as = some s) :
    GrownTo s.core (n :: as.flatMap HandleAct.asks) ∨ ∃ j, s.shutdown = some (j, []) := by
  have hofshutdown := ofShutdown_of_mem hcalls
  rw [← history_of_actions HandleAct.asks hrun]
  refine @Meets.history_invariant _ _ _ (handleStep policy calls) (fun _ => HandleAct.asks)
    (HandleState.init policy i n) _ (fun (s : HandleState σ τ ι) h =>
      GrownTo s.core (n :: h) ∨ ∃ j, s.shutdown = some (j, [])) ?_ ?_ as s hmeets hrun
  · have hstart : step policy (PoolState.init policy) (.call i (.resize n))
        = some (HandleState.init policy i n).core := rfl
    exact .inl (grownTo_step grownTo_init (Reachable.refl _ _) rfl hstart)
  · intro s h a s' hreach hgrown hgrows hstep
    have hcore := core_reachable hreach
    have hinv := reachable_handleInv hofshutdown hreach
    rcases hgrown with hgrown | ⟨j, hdone⟩
    · cases handleStep_move hstep with
      | copy | destroy =>
        left
        show GrownTo s.core (n :: (h ++ []))
        rw [List.append_nil]
        exact hgrown
      | @call u c hu hc hidle =>
        have hnone : (Act.call u c).asks = [] := by cases c <;> first | rfl | cases hc
        have hnext := grownTo_step hgrown hcore (by cases c <;> first | rfl | cases hc)
          (callStep_idle c hidle)
        rw [hnone] at hnext
        exact .inl hnext
      | @resize u hidle k =>
        exact .inl (grownTo_step hgrown hcore rfl (callStep_idle (.resize k) hidle))
      | @next u c rest hshutdown hidle =>
        obtain ⟨made, hsplit, -⟩ := hinv.made u _ hshutdown
        have hc : c.ofShutdown = true := hofshutdown c (by rw [hsplit]; simp)
        cases c with
        | terminateAllWorkers join =>
          obtain rfl := last_call hcalls hsplit
          exact .inr ⟨u, rfl⟩
        | clear => exact .inl (grownTo_step hgrown hcore rfl (callStep_idle .clear hidle))
        | wait k => exact .inl (grownTo_step hgrown hcore rfl (callStep_idle (.wait k) hidle))
        | _ => cases hc
      | core hb hcore' =>
        have hnext := grownTo_step hgrown hcore hgrows hcore'
        rw [asks_of_isCall hb] at hnext
        exact .inl hnext
    · have hempty := hinv.last.mpr (by rw [hdone]; simp)
      exact .inr ⟨j, ((handleStep_move hstep).stays hempty hdone).2.1⟩

/-- **A shutdown returns, unless its pool has lost its workers.** With any of
the three shutdown policies, in every run: where no thread can take a step and
no handle is left, the calls of the policy have returned if and only if no task
is pending. Otherwise the policy is `wait_for_all_tasks`, its thread is in
`wait(0)`, and every worker has ended. And they have returned in every run in
which no `resize` lowers the target, threads can be created, and the pool was
given workers. -/
theorem shutdown_returns (hcalls : calls ∈ shutdownPolicies) {as : List (HandleAct τ ι)}
    (hrun : run (handleStep policy calls) (HandleState.init policy i n) as = some s)
    (hstuck : Stuck (handleStep policy calls) HandleAct.ofThread s) (hempty : s.handles = []) :
    (s.Returned ↔ policy.tasks s.core.scheduler = 0) ∧
      (policy.tasks s.core.scheduler ≠ 0 → calls = waitForAllTasks ∧
        (∃ j, s.shutdown = some (j, [.terminateAllWorkers true]) ∧
          s.core.caller j = .waitBlocked false 0 false) ∧
        ∀ pc ∈ s.core.workers, pc = .finished) ∧
      (Meets (handleStep policy calls) (fun s a => HandleAct.grows s a = true)
          (HandleState.init policy i n) as →
        0 < (n :: as.flatMap HandleAct.asks).foldr max 0 → s.Returned) := by
  have hreach : Reachable (handleStep policy calls) (HandleState.init policy i n) s := ⟨as, hrun⟩
  have hofshutdown := ofShutdown_of_mem hcalls
  have hinv := reachable_handleInv hofshutdown hreach
  have hcases := stuck_shutdown hofshutdown hreach hstuck hempty
  have hiff : s.Returned ↔ policy.tasks s.core.scheduler = 0 := by
    constructor
    · intro hreturned
      obtain ⟨j, hdone, hidle⟩ := hreturned
      have hall := hinv.all_done hdone (by rw [hidle]; rfl)
      exact (settled_of_done hcalls hall).2.1.tasks
    · intro hnone
      exact hcases.resolve_right fun h => h.1 hnone
  have hlost : policy.tasks s.core.scheduler ≠ 0 → calls = waitForAllTasks ∧
      (∃ j, s.shutdown = some (j, [.terminateAllWorkers true]) ∧
        s.core.caller j = .waitBlocked false 0 false) ∧ ∀ pc ∈ s.core.workers, pc = .finished := by
    intro htasks
    obtain ⟨-, j, rest, timed, threshold, hshutdown, hwait⟩ :=
      hcases.resolve_left fun h => htasks (hiff.mp h)
    obtain ⟨hall, hwaits, hended⟩ := stuck_waits hcalls hreach hstuck htasks hshutdown hwait
    exact ⟨hall, ⟨j, hwaits⟩, hended⟩
  refine ⟨hiff, hlost, fun hmeets hpos => hiff.mpr ?_⟩
  rcases grownTo_handles hcalls hmeets hrun with hgrown | ⟨j, hdone⟩
  · have hcore := core_reachable hreach
    exact ((grownTo_rests hgrown hcore (core_stuck hstuck)).2 hpos).1
  · by_contra htasks
    obtain ⟨-, ⟨j', hshutdown, -⟩, -⟩ := hlost htasks
    cases hdone.symm.trans hshutdown

end

theorem twoHandlesRun_rests :
    ∃ s : HandleState (List Nat) Nat Bool,
      run (handleStep fifoScheduler waitForAllTasks) (HandleState.init fifoScheduler false 1)
        twoHandlesRun = some s ∧ s.handles = [] ∧
      Stuck (handleStep fifoScheduler waitForAllTasks) HandleAct.ofThread s := by
  have hrun : ∃ s : HandleState (List Nat) Nat Bool,
      run (handleStep fifoScheduler waitForAllTasks) (HandleState.init fifoScheduler false 1)
        twoHandlesRun = some s ∧ s.handles = [] ∧ s.core.workers = [.finished] ∧
      s.core.caller false = .idle ∧ s.core.caller true = .idle ∧
      handleStep fifoScheduler waitForAllTasks s .next = none :=
    ⟨_, rfl, rfl, rfl, rfl, rfl, rfl⟩
  obtain ⟨s, hs, hempty, hworkers, hfalse, htrue, hnext⟩ := hrun
  refine ⟨s, hs, hempty, stuck_of_core (rest_of_idle (fun i => ?_) fun pc hpc => .inr ?_) hnext⟩
  · cases i <;> assumption
  · rw [hworkers] at hpc
    exact List.mem_singleton.mp hpc

/-- A pool without workers, whose only handle schedules a task. -/
def noWorkersRun : List (HandleAct Nat Bool) :=
  let owner := .core (.caller false none true)
  [owner, owner, owner, .call false (.schedule 7), owner, owner, .destroy false, .next, owner,
    owner]

theorem noWorkersRun_rests :
    ∃ s : HandleState (List Nat) Nat Bool,
      run (handleStep fifoScheduler waitForAllTasks) (HandleState.init fifoScheduler false 0)
        noWorkersRun = some s ∧ s.handles = [] ∧ s.core.scheduler = [7] ∧
      Stuck (handleStep fifoScheduler waitForAllTasks) HandleAct.ofThread s := by
  have hrun : ∃ s : HandleState (List Nat) Nat Bool,
      run (handleStep fifoScheduler waitForAllTasks) (HandleState.init fifoScheduler false 0)
        noWorkersRun = some s ∧ s.handles = [] ∧ s.core.scheduler = [7] ∧ s.core.workers = [] ∧
      s.core.caller false = .waitBlocked false 0 false ∧ s.core.caller true = .idle ∧
      handleStep fifoScheduler waitForAllTasks s .next = none :=
    ⟨_, rfl, rfl, rfl, rfl, rfl, rfl, rfl⟩
  obtain ⟨s, hs, hempty, htasks, hworkers, hfalse, htrue, hnext⟩ := hrun
  refine ⟨s, hs, hempty, htasks,
    stuck_of_core (stuck_of_rest (fun i => ?_) fun pc hpc => ?_) hnext⟩
  · cases i with
    | false => exact .inr ⟨false, 0, hfalse⟩
    | true => exact .inl htrue
  · rw [hworkers] at hpc
    cases hpc

/-- The theorem where the run with two handles ends, and where this one does. -/
theorem shutdown_returns_two_handles :
    (∃ s : HandleState (List Nat) Nat Bool,
      run (handleStep fifoScheduler waitForAllTasks) (HandleState.init fifoScheduler false 1)
        twoHandlesRun = some s ∧ s.handles = [] ∧ s.Returned ∧
      fifoScheduler.tasks s.core.scheduler = 0) ∧
    ∃ s : HandleState (List Nat) Nat Bool,
      run (handleStep fifoScheduler waitForAllTasks) (HandleState.init fifoScheduler false 0)
        noWorkersRun = some s ∧ s.handles = [] ∧ ¬ s.Returned := by
  obtain ⟨s, hs, hempty, hstuck⟩ := twoHandlesRun_rests
  obtain ⟨s', hs', hempty', htasks, hstuck'⟩ := noWorkersRun_rests
  obtain ⟨hiff, -, hgrown⟩ := shutdown_returns List.mem_cons_self hs hstuck hempty
  obtain ⟨hiff', -, -⟩ := shutdown_returns List.mem_cons_self hs' hstuck' hempty'
  have hreturned := hgrown (by decide) (by decide)
  refine ⟨⟨s, hs, hempty, hreturned, hiff.mp hreturned⟩, s', hs', hempty', ?_⟩
  intro hreturned'
  have hnone := hiff'.mp hreturned'
  rw [htasks] at hnone
  exact absurd hnone (by decide)

end Satf.ThreadPool
