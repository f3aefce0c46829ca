import Satf.Pool.History

/-!
# Every run of the pool ends

The owner's program ends (`Client.EndsIn`), and so do its tasks, which take one
step each. Then the threads of the pool can only take so many steps, whoever
goes first, apart from wake-ups without a notification: each of those can make
its thread look and go back to sleep.

The argument is a potential, `potential`: every thread has a rank that falls
with each of its steps, a pending task is worth the steps of the worker that
will run it, and a step that notifies others pays for what they will do. A
thread that waits and is not notified ranks lowest but for the end, so falling
asleep pays for the notification that comes with it.

> `every_run_ends`: a bound on the steps, and where no thread can take another
> one the owner has returned and every worker's thread has ended.
-/

namespace Satf.Pool

open Satf.Lib

variable {κ τ : Type} {n : Nat} {client : Client κ τ} {s s' : PoolCore κ τ n} {w : Fin n}

/-! ## The potential -/

/-- The owner's program ends in this many steps from `k`. -/
inductive Client.EndsIn (client : Client κ τ) : κ → Nat → Prop where
  | finished {k} (h : client.next k = .finished) : EndsIn client k 0
  | compute {k k' m} (h : client.next k = .compute k') (hrest : EndsIn client k' m) :
      EndsIn client k (m + 1)
  | schedule {k task k' m} (h : client.next k = .schedule task k')
      (hrest : EndsIn client k' m) : EndsIn client k (m + 1)

/-- The same from a place of the owner. -/
def Client.EndsFrom (client : Client κ τ) : MainPc κ τ n → Nat → Prop
  | .construct, m | .resizeStart, m | .resizing, m => client.EndsIn client.start m
  | .client k, m | .schedule _ k, m | .scheduling _ k, m => client.EndsIn k m
  | _, m => m = 0

/-- How far a worker is from its end. -/
def WorkerPc.rank : WorkerPc τ → Nat
  | .finished | .blocked false => 0
  | .exiting => 1
  | .destructing => 5
  | .destruct => 6
  | .loopTest => 7
  | .firstTest | .blocked true => 8
  | .fetch => 9
  | .running _ | .absent => 10

/-- How far the owner is from its return, with `m` steps of its program to
come: `schedule` wakes one worker and adds a task, `terminate_all_workers`
wakes all `n`. -/
def MainPc.rank (m : Nat) : MainPc κ τ n → Nat
  | .construct => 8 * n + 15 * m + 10
  | .resizeStart => 8 * n + 15 * m + 9
  | .resizing => 8 * n + 15 * m + 8
  | .client _ => 8 * n + 15 * m + 7
  | .schedule _ _ => 8 * n + 15 * m + 21
  | .scheduling _ _ => 8 * n + 15 * m + 20
  | .wait | .waitBlocked true => 8 * n + 6
  | .waitTest => 8 * n + 5
  | .waitBlocked false | .terminate => 8 * n + 4
  | .terminating => 8 * n + 3
  | .terminateBlocked true => 3
  | .terminateTest => 2
  | .terminateBlocked false => 1
  | .joining ws => ws.length + 1
  | .returned => 0

/-- The workers still to be listed for the owner. -/
def PoolCore.toJoin (s : PoolCore κ τ n) : Nat :=
  match s.main with
  | .joining _ => 0
  | _ => s.terminatedWorkers.length

/-- What is left to do. -/
def potential (client : Client κ τ) (s : PoolCore κ τ n) (p : Nat) : Prop :=
  ∃ m, client.EndsFrom s.main m ∧
    p = s.main.rank m + s.toJoin + 4 * s.scheduler.length + weightOf WorkerPc.rank s.worker

/-- The steps that some thread takes of its own. -/
def Act.byThread : Act n → Bool
  | .main _ | .worker _ => true
  | .spuriousMain | .spuriousWorker _ => false

/-! ## What a notification costs -/

theorem WorkerPc.notified_rank_le (pc : WorkerPc τ) : pc.notified.rank ≤ pc.rank + 8 := by
  cases pc with
  | blocked b => cases b <;> simp [WorkerPc.notified, WorkerPc.rank]
  | _ => exact Nat.le_add_right _ _

theorem MainPc.notified_rank_le (m : Nat) (pc : MainPc κ τ n) :
    pc.notified.rank m ≤ pc.rank m + 2 := by
  cases pc with
  | waitBlocked b | terminateBlocked b => cases b <;> simp [MainPc.notified, MainPc.rank]
  | _ => exact Nat.le_add_right _ _

@[simp] theorem Client.endsFrom_notified (client : Client κ τ) (pc : MainPc κ τ n) (m : Nat) :
    client.EndsFrom pc.notified m = client.EndsFrom pc m := by
  cases pc <;> rfl

theorem weight_atWorker (s : PoolCore κ τ n) (w : Fin n) (pc : WorkerPc τ) :
    weightOf WorkerPc.rank (s.atWorker w pc).worker + (s.worker w).rank
      = weightOf WorkerPc.rank s.worker + pc.rank :=
  weightOf_update WorkerPc.rank s.worker w pc

theorem weight_notifyAll (s : PoolCore κ τ n) :
    weightOf WorkerPc.rank s.notifyAllTasks.worker
      ≤ weightOf WorkerPc.rank s.worker + n * 8 := by
  have h := weightOf_le (f := s.worker) fun i => WorkerPc.notified_rank_le (s.worker i)
  rw [Fintype.card_fin] at h
  exact h

/-! ## Every step pays -/

/-- Whatever the owner does lowers the potential. -/
theorem mainMove_potential {p : Nat} (hgrow : GrowInv s) (hpot : potential client s p)
    (h : MainMove client s s') : ∃ p', potential client s' p' ∧ p' < p := by
  obtain ⟨m, hends, rfl⟩ := hpot
  cases h with
  | @lock pc hlock =>
    cases hmain : s.main with
    | construct | schedule | wait | terminate =>
      rw [hmain] at hlock hends
      cases hlock
      refine ⟨_, ⟨m, hends, rfl⟩, ?_⟩
      simp only [PoolCore.toJoin, MainPc.rank, hmain]
      omega
    | waitBlocked b | terminateBlocked b =>
      rw [hmain] at hlock hends
      cases b with
      | true =>
        cases hlock
        refine ⟨_, ⟨m, hends, rfl⟩, ?_⟩
        simp only [PoolCore.toJoin, MainPc.rank, hmain]
        omega
      | false => cases hlock
    | _ => rw [hmain] at hlock; cases hlock
  | create hmain hmore hlt =>
    -- the new worker has one step less before it than while it did not exist
    have habsent := (hgrow.fresh (by rw [hmain]; rfl)).2.2.2 ⟨s.workerCount, hlt⟩
    rw [if_neg (Nat.lt_irrefl _)] at habsent
    have hweight := weight_atWorker s ⟨s.workerCount, hlt⟩ .fetch
    rw [habsent] at hweight
    refine ⟨_, ⟨m, hends, rfl⟩, ?_⟩
    simp only [PoolCore.toJoin, WorkerPc.rank, PoolCore.atWorker] at hweight ⊢
    omega
  | resizeDown hmain hflag hgt =>
    have hle := (hgrow.fresh (by rw [hmain]; rfl)).2.1
    omega
  | compute hmain hnext =>
    rw [hmain] at hends
    cases hends with
    | compute hnext' hrest =>
      rw [hnext] at hnext'
      cases hnext'
      refine ⟨_, ⟨_, hrest, rfl⟩, ?_⟩
      simp only [PoolCore.toJoin, MainPc.rank, hmain]
      omega
    | finished hnext' | schedule hnext' => rw [hnext] at hnext'; cases hnext'
  | schedule hmain hnext =>
    rw [hmain] at hends
    cases hends with
    | schedule hnext' hrest =>
      rw [hnext] at hnext'
      cases hnext'
      refine ⟨_, ⟨_, hrest, rfl⟩, ?_⟩
      simp only [PoolCore.toJoin, MainPc.rank, hmain]
      omega
    | finished hnext' | compute hnext' => rw [hnext] at hnext'; cases hnext'
  | finish hmain hnext =>
    refine ⟨_, ⟨0, rfl, rfl⟩, ?_⟩
    simp only [PoolCore.toJoin, MainPc.rank, hmain]
    omega
  | @pushNotify task k w hmain hasleep =>
    -- the owner pays for the task and for the worker it wakes
    have hweight := weight_atWorker s w (.blocked true)
    rw [asleep_eq hasleep] at hweight
    rw [hmain] at hends
    refine ⟨_, ⟨m, hends, rfl⟩, ?_⟩
    simp only [PoolCore.toJoin, MainPc.rank, WorkerPc.rank, PoolCore.atWorker, hmain,
      List.length_append, List.length_singleton] at hweight ⊢
    omega
  | push hmain =>
    rw [hmain] at hends
    refine ⟨_, ⟨m, hends, rfl⟩, ?_⟩
    simp only [PoolCore.toJoin, MainPc.rank, hmain, List.length_append, List.length_singleton]
    omega
  | terminateAll hmain =>
    -- and for all the workers that it tells to leave
    have hweight := weight_notifyAll s
    rw [hmain] at hends
    refine ⟨_, ⟨m, hends, rfl⟩, ?_⟩
    simp only [PoolCore.toJoin, MainPc.rank, PoolCore.notifyAllTasks, hmain] at hweight ⊢
    omega
  | resizeRefused hmain | resizeUp hmain | created hmain | waitBlock hmain | waited hmain
  | terminateBlock hmain | startJoin hmain | joined hmain =>
    rw [hmain] at hends
    refine ⟨_, ⟨m, hends, rfl⟩, ?_⟩
    simp only [PoolCore.toJoin, MainPc.rank, hmain, List.length_nil]
    omega
  | join hmain =>
    rw [hmain] at hends
    refine ⟨_, ⟨m, hends, rfl⟩, ?_⟩
    simp only [PoolCore.toJoin, MainPc.rank, hmain, List.length_cons]
    omega

theorem toJoin_notified_le (s : PoolCore κ τ n) (ws : List (Fin n)) :
    ({ s with main := s.main.notified, terminatedWorkers := ws } : PoolCore κ τ n).toJoin
      ≤ s.toJoin + (ws.length - s.terminatedWorkers.length) := by
  unfold PoolCore.toJoin
  cases hmain : s.main with
  | joining ws' => exact Nat.zero_le _
  | _ => simp only [MainPc.notified]; omega

/-- Whatever a worker does lowers the potential. -/
theorem workerMove_potential {p : Nat} (hpot : potential client s p) (h : WorkerMove s w s') :
    ∃ p', potential client s' p' ∧ p' < p := by
  obtain ⟨m, hends, rfl⟩ := hpot
  -- a step that notifies nobody and removes `taken` tasks from the scheduler
  have hstay : ∀ (taken : Nat) {u : PoolCore κ τ n} {pc : WorkerPc τ}, u.main = s.main →
      u.terminatedWorkers = s.terminatedWorkers → u.worker = (s.atWorker w pc).worker →
      u.scheduler.length + taken = s.scheduler.length → pc.rank < (s.worker w).rank + 4 * taken →
      ∃ p', potential client u p' ∧
        p' < s.main.rank m + s.toJoin + 4 * s.scheduler.length
          + weightOf WorkerPc.rank s.worker := by
    intro taken u pc hmain hlist hworker hlength hlt
    have hweight := weight_atWorker s w pc
    rw [← hworker] at hweight
    refine ⟨_, ⟨m, by rw [hmain]; exact hends, rfl⟩, ?_⟩
    rw [show u.toJoin = s.toJoin by unfold PoolCore.toJoin; rw [hmain, hlist], hmain]
    omega
  cases h with
  | lock hlock =>
    rcases WorkerPc.afterLock_eq hlock with ⟨hw, rfl⟩ | ⟨hw, rfl⟩
    · exact hstay 0 rfl rfl rfl rfl (by rw [hw]; simp [WorkerPc.rank])
    · exact hstay 0 rfl rfl rfl rfl (by rw [hw]; simp [WorkerPc.rank])
  | wake hw | stay hw | done hw | exit hw =>
    exact hstay 0 rfl rfl rfl rfl (by rw [hw]; simp [WorkerPc.rank])
  | leave hw =>
    rcases hw with hw | hw
    · exact hstay 0 rfl rfl rfl rfl (by rw [hw]; simp [WorkerPc.rank])
    · exact hstay 0 rfl rfl rfl rfl (by rw [hw]; simp [WorkerPc.rank])
  | take hw htask =>
    exact hstay 1 rfl rfl rfl (by rw [htask]; rfl) (by rw [hw]; simp [WorkerPc.rank])
  | sleep hw =>
    -- falling asleep pays for the owner's wake-up
    have hweight := weight_atWorker s w (.blocked false)
    have hmain := MainPc.notified_rank_le m s.main
    have hjoin := toJoin_notified_le s s.terminatedWorkers
    rw [hw] at hweight
    refine ⟨_, ⟨m, by rw [client.endsFrom_notified]; exact hends, rfl⟩, ?_⟩
    simp only [WorkerPc.rank, PoolCore.atWorker, PoolCore.toJoin] at hweight hjoin ⊢
    omega
  | destructed hw =>
    -- and so does leaving, with a place in the list to join
    have hweight := weight_atWorker s w .exiting
    have hmain := MainPc.notified_rank_le m s.main
    have hjoin := toJoin_notified_le s
      (if s.terminateAllWorkers then s.terminatedWorkers ++ [w] else s.terminatedWorkers)
    have hlength : (if s.terminateAllWorkers then s.terminatedWorkers ++ [w]
        else s.terminatedWorkers).length ≤ s.terminatedWorkers.length + 1 := by
      split
      · simp
      · omega
    rw [hw] at hweight
    refine ⟨_, ⟨m, by rw [client.endsFrom_notified]; exact hends, rfl⟩, ?_⟩
    simp only [WorkerPc.rank, PoolCore.atWorker, PoolCore.toJoin] at hweight hjoin ⊢
    omega

/-- The pool's potential pays for every step of a thread, and a wake-up without
a notification adds at most the 8 that a worker needs to look again. -/
theorem pool_potential :
    Potential (step client) Act.byThread (PoolCore.init : PoolCore κ τ n) 8 (potential client) where
  pays s a s' p hreach hpot hthread hstep := by
    cases a with
    | main chosen =>
      exact mainMove_potential (reachable_poolInv hreach).grow hpot (mainStep_move hstep)
    | worker w => exact workerMove_potential hpot (workerStep_move hstep)
    | spuriousMain | spuriousWorker w => cases hthread
  adds s a s' p _ hpot hthread hstep := by
    obtain ⟨m, hends, rfl⟩ := hpot
    cases a with
    | main chosen | worker w => cases hthread
    | spuriousMain =>
      cases hstep
      have hmain := MainPc.notified_rank_le m s.main
      have hjoin := toJoin_notified_le s s.terminatedWorkers
      refine ⟨_, ⟨m, by rw [client.endsFrom_notified]; exact hends, rfl⟩, ?_⟩
      simp only [PoolCore.toJoin] at hjoin ⊢
      omega
    | spuriousWorker w =>
      cases hstep
      have hweight := weight_atWorker s w (s.worker w).notified
      have hrank := WorkerPc.notified_rank_le (s.worker w)
      refine ⟨_, ⟨m, hends, rfl⟩, ?_⟩
      simp only [PoolCore.atWorker, PoolCore.toJoin] at hweight ⊢
      omega

/-! ## Nobody sleeps through the end -/

/-- After `m_terminate_all_workers` is set, no worker waits for a task. -/
structure AwakeInv (s : PoolCore κ τ n) : Prop where
  target : s.terminateAllWorkers = true → s.targetWorkerCount = 0
  awake : s.terminateAllWorkers = true → ∀ w, (s.worker w).asleep = false

/-- A worker falls asleep only if it need not leave. -/
theorem workerStep_asleep (h : workerStep s w = some s') (hasleep : (s'.worker w).asleep = true) :
    (s.worker w).counted = true ∧ s.workerCount ≤ s.targetWorkerCount := by
  have hnot : ∀ pc, pc.asleep = false → ((s.atWorker w pc).worker w).asleep ≠ true := by
    intro pc hpc
    rw [atWorker_worker_self, hpc]
    exact Bool.false_ne_true
  cases workerStep_move h with
  | lock hlock =>
    rcases WorkerPc.afterLock_eq hlock with ⟨-, rfl⟩ | ⟨-, rfl⟩
    · exact absurd hasleep (hnot _ rfl)
    · exact absurd hasleep (hnot _ rfl)
  | wake | leave | stay | take | done | destructed | exit => exact absurd hasleep (hnot _ rfl)
  | sleep hw hempty =>
    refine ⟨by rw [hw]; rfl, ?_⟩
    by_contra hmany
    simp only [workerStep, hw, hempty, if_pos (Nat.lt_of_not_le hmany), Option.some.injEq] at h
    rw [← h] at hasleep
    exact hnot _ rfl hasleep

theorem mainMove_awakeInv (hgrow : GrowInv s) (hinv : AwakeInv s) (h : MainMove client s s') :
    AwakeInv s' := by
  cases h with
  | resizeUp hmain hflag => exact ⟨fun h => absurd (hflag.symm.trans h) (by simp),
      fun h => absurd (hflag.symm.trans h) (by simp)⟩
  | resizeDown hmain hflag => exact ⟨fun h => absurd (hflag.symm.trans h) (by simp),
      fun h => absurd (hflag.symm.trans h) (by simp)⟩
  | create hmain =>
    have hflag := (hgrow.fresh (by rw [hmain]; rfl)).1
    exact ⟨hinv.target, fun h => absurd (hflag.symm.trans h) (by simp)⟩
  | pushNotify hmain hasleep =>
    refine ⟨hinv.target, fun h => ?_⟩
    rw [hinv.awake h] at hasleep
    cases hasleep
  | terminateAll => exact ⟨fun _ => rfl, fun _ v => WorkerPc.notified_asleep _⟩
  | lock | resizeRefused | created | compute | schedule | finish | push | waitBlock | waited
  | terminateBlock | startJoin | join | joined => exact ⟨hinv.target, hinv.awake⟩

theorem workerStep_awakeInv (hcount : CountInv s) (hinv : AwakeInv s)
    (h : workerStep s w = some s') : AwakeInv s' := by
  have hsame : s'.terminateAllWorkers = s.terminateAllWorkers ∧
      s'.targetWorkerCount = s.targetWorkerCount := by
    cases workerStep_move h <;> exact ⟨rfl, rfl⟩
  refine ⟨by rw [hsame.1, hsame.2]; exact hinv.target, ?_⟩
  intro hflag v
  rw [hsame.1] at hflag
  by_cases hv : v = w
  · subst hv
    rw [← Bool.not_eq_true]
    intro hasleep
    -- told to leave while it is counted, it would not have gone to sleep
    obtain ⟨hcounted, hle⟩ := workerStep_asleep h hasleep
    have hpos := countWhere_pos (f := s.worker) hcounted
    rw [← hcount.counted] at hpos
    rw [hinv.target hflag] at hle
    omega
  · rw [(workerStep_tasks h).2.2 v hv]
    exact hinv.awake hflag v

theorem reachable_awakeInv (h : Reachable (step client) (PoolCore.init : PoolCore κ τ n) s) :
    AwakeInv s := by
  have hboth : PoolInv s ∧ AwakeInv s := by
    refine @Reachable.invariant _ _ _ (fun s => PoolInv s ∧ AwakeInv s) _ _ h
      ⟨init_poolInv, fun h => (by cases h), fun h => (by cases h)⟩ ?_
    intro s a s' hinv hstep
    obtain ⟨hpool, hawake⟩ := hinv
    refine ⟨step_poolInv hpool hstep, ?_⟩
    cases a with
    | main chosen => exact mainMove_awakeInv hpool.grow hawake (mainStep_move hstep)
    | worker w => exact workerStep_awakeInv hpool.count hawake hstep
    | spuriousMain =>
      cases hstep
      exact ⟨hawake.target, hawake.awake⟩
    | spuriousWorker w =>
      cases hstep
      refine ⟨hawake.target, fun hflag v => ?_⟩
      by_cases hv : v = w
      · rw [hv, atWorker_worker_self, WorkerPc.notified_asleep]
      · rw [atWorker_worker_ne s _ hv]
        exact hawake.awake hflag v
  exact hboth.2

/-! ## The end -/

/-- Where no thread can take a step after the owner has returned, all workers
have ended. -/
theorem stuck_finished (hreach : Reachable (step client) PoolCore.init s)
    (hret : s.main = .returned) (hstuck : Stuck (step client) Act.ofThread s) (w : Fin n) :
    s.worker w = .finished := by
  have hpool := reachable_poolInv hreach
  have hfree : s.monitor = none := by
    cases hmon : s.monitor with
    | none => rfl
    | some holder =>
      cases holder with
      | main => rw [hpool.lock.main, hret] at hmon; cases hmon
      | worker v =>
        exact absurd (hstuck (.worker v) trivial)
          (worker_holder_moves ((hpool.lock.worker v).mp hmon))
  have hout : (s.worker w).holds = false := by
    rw [Bool.eq_false_iff]
    intro hin
    rw [(hpool.lock.worker w).mpr hin] at hfree
    cases hfree
  rcases worker_waits hfree hout (hstuck (.worker w) trivial) with h | h | h
  · exact absurd h (hpool.grow.complete (by rw [hret]; rfl) w)
  · have hawake := (reachable_awakeInv hreach).awake (by rw [hpool.term.flag, hret]; rfl) w
    rw [h] at hawake
    cases hawake
  · exact h

/-- What the pool starts with: 10 for each worker to create, 8 more for the
one time that all are told to leave, 15 for each step of the owner's program. -/
theorem init_potential {m : Nat} (hends : client.EndsIn client.start m) :
    potential client (PoolCore.init : PoolCore κ τ n) (15 * m + 18 * n + 10) := by
  refine ⟨m, hends, ?_⟩
  have hweight : weightOf WorkerPc.rank (PoolCore.init : PoolCore κ τ n).worker = n * 10 := by
    simp [weightOf, PoolCore.init, WorkerPc.rank]
  rw [hweight]
  simp only [PoolCore.init, PoolCore.toJoin, MainPc.rank, List.length_nil]
  omega

/-- The threads of a pool of `n` workers, with an owner of `m` steps, can only
take so many steps. -/
theorem run_steps_le {m : Nat} (hends : client.EndsIn client.start m) {as : List (Act n)}
    (hrun : run (step client) PoolCore.init as = some s) :
    as.countP Act.byThread
      ≤ 15 * m + 18 * n + 10 + 8 * as.countP (fun a => !a.byThread) := by
  obtain ⟨p, -, hle⟩ := pool_potential.run (init_potential hends) hrun
  omega

/-- With a worker, no thread is left behind when none can go on. -/
theorem stuck_over (hn : 0 < n) (hreach : Reachable (step client) PoolCore.init s)
    (hstuck : Stuck (step client) Act.ofThread s) :
    s.main = .returned ∧ ∀ w, s.worker w = .finished := by
  have hret : s.main = .returned := by
    by_contra hmain
    exact never_deadlocked hn hreach ⟨hmain, hstuck⟩
  exact ⟨hret, stuck_finished hreach hret hstuck⟩

/-- **Every run ends.** With at least one worker and a program of `m` steps,
no interleaving lets the threads take more than `15 m + 18 n + 10` steps, and 8
more for each wake-up without a notification. Where none of them can take
another step, the owner has returned, its tasks have all been executed in the
order of its program, and the thread of every worker has ended. -/
theorem every_run_ends {m : Nat} {ts : List τ} (hn : 0 < n)
    (hends : client.EndsIn client.start m) (hprog : client.Schedules client.start ts)
    {as : List (Act n)} (hrun : run (step client) PoolCore.init as = some s) :
    as.countP Act.byThread
        ≤ 15 * m + 18 * n + 10 + 8 * as.countP (fun a => !a.byThread) ∧
      (Stuck (step client) Act.ofThread s →
        s.main = .returned ∧ (∀ w, s.worker w = .finished) ∧
          (starts (poolHistory client n as)).map Prod.snd = ts ∧
          ((finishes (poolHistory client n as)).map Prod.snd).Perm ts) := by
  refine ⟨run_steps_le hends hrun, fun hstuck => ?_⟩
  obtain ⟨hret, hfinished⟩ := stuck_over hn ⟨as, hrun⟩ hstuck
  exact ⟨hret, hfinished, run_returned hprog hrun hret⟩

theorem listClient_endsIn (ts : List τ) : ∀ us : List τ, (listClient ts).EndsIn us us.length
  | [] => .finished rfl
  | _ :: us => .schedule rfl (listClient_endsIn ts us)

/-- Two tasks on one worker, to the end of its thread. -/
def twoTasksToTheEnd : List (Act 1) := twoTasksRun ++ List.replicate 5 (.worker (Fin.last 0))

/-- The theorem on that run. -/
theorem every_run_ends_two_tasks :
    ∃ s, run (step (listClient [7, 7])) PoolCore.init twoTasksToTheEnd = some s ∧
      twoTasksToTheEnd.countP Act.byThread
        ≤ 15 * 2 + 18 * 1 + 10 + 8 * twoTasksToTheEnd.countP (fun a => !a.byThread) ∧
      (Stuck (step (listClient [7, 7])) Act.ofThread s →
        s.main = .returned ∧ ∀ w, s.worker w = .finished) := by
  have hrun : (run (step (listClient [7, 7])) PoolCore.init twoTasksToTheEnd).map
      (fun s => s.workerCount) = some 0 := rfl
  obtain ⟨s, hs, -⟩ := Option.map_eq_some_iff.mp hrun
  obtain ⟨hbound, hend⟩ := every_run_ends Nat.one_pos (listClient_endsIn [7, 7] [7, 7])
    (listClient_schedules [7, 7] [7, 7]) hs
  exact ⟨s, hs, hbound, fun hstuck => ⟨(hend hstuck).1, (hend hstuck).2.1⟩⟩

end Satf.Pool
