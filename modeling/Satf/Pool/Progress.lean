import Satf.Pool.Invariants

/-!
# When the pool cannot get stuck

> `progress`: while the owner has not returned, some thread can take a step,
> provided there is a worker or nothing is pending.

Whoever holds the monitor can go on, and while it is free everybody can who
does not sleep. So a stuck pool has all its workers asleep or finished and its
owner asleep in `wait` or in `terminate_all_workers`, which the invariants
about wake-ups exclude.

Without a worker the owner sleeps forever as soon as it has scheduled a task
(`no_workers_deadlock`).
-/

namespace Satf.Pool

open Satf.Lib

variable {κ τ : Type} {n : Nat} {client : Client κ τ} {s : PoolCore κ τ n} {w : Fin n}

/-! ## Who can take a step -/

/-- The owner can go on while it holds the monitor, or else the thread can
that it joins. -/
theorem main_holder_moves (hinv : PoolInv s) (hholds : s.main.holds = true) :
    ∃ a, Act.ofThread a ∧ step client s a ≠ none := by
  have hmain : ∀ chosen, mainStep client s chosen ≠ none →
      ∃ a, Act.ofThread a ∧ step client s a ≠ none := fun chosen h => ⟨.main chosen, trivial, h⟩
  cases hpc : s.main with
  | resizeStart =>
    refine hmain none ?_
    simp only [mainStep, hpc, resizeStep]
    split
    · simp
    · split <;> simp
  | resizing =>
    refine hmain none ?_
    simp only [mainStep, hpc, createStep]
    split
    next hmore =>
      have htarget := hinv.grow.target hpc
      rw [dif_pos (by omega)]
      simp
    next => simp
  | scheduling task k =>
    -- `notify_one` picks a sleeper if there is one
    by_cases hall : ∀ v, (s.worker v).asleep = false
    · refine hmain none ?_
      simp only [mainStep, hpc, scheduleStep]
      rw [if_pos hall]
      simp
    · obtain ⟨v, hv⟩ := not_forall.mp hall
      refine hmain (some v) ?_
      simp only [mainStep, hpc, scheduleStep]
      rw [if_pos ((Bool.not_eq_false _).mp hv)]
      simp
  | waitTest =>
    refine hmain none ?_
    simp only [mainStep, hpc]
    split <;> simp
  | terminating => exact hmain none (by simp [mainStep, hpc])
  | terminateTest =>
    refine hmain none ?_
    simp only [mainStep, hpc]
    split <;> simp
  | joining ws =>
    cases ws with
    | nil => exact hmain none (by simp [mainStep, hpc])
    | cons v ws =>
      -- a worker to join needs the monitor no more: it ends, or it has ended
      have hgone := hinv.term.joining _ hpc v List.mem_cons_self
      cases hv : s.worker v with
      | exiting => exact ⟨.worker v, trivial, by simp [step, workerStep, hv]⟩
      | finished => exact hmain none (by simp [mainStep, hpc, hv, WorkerPc.ended])
      | _ => rw [hv] at hgone; cases hgone
  | _ => rw [hpc] at hholds; cases hholds

/-- A worker can go on while it holds the monitor. -/
theorem worker_holder_moves (hholds : (s.worker w).holds = true) : workerStep s w ≠ none := by
  cases hw : s.worker w with
  | firstTest =>
    simp only [workerStep, hw]
    split <;> simp
  | loopTest =>
    simp only [workerStep, hw]
    split
    · split <;> simp
    · simp
  | destructing => simp [workerStep, hw]
  | _ => rw [hw] at hholds; cases hholds

/-- While the monitor is free, a worker that cannot take a step does not exist
yet, sleeps, or has finished. -/
theorem worker_waits (hfree : s.monitor = none) (hout : (s.worker w).holds = false)
    (hstep : workerStep s w = none) :
    s.worker w = .absent ∨ s.worker w = .blocked false ∨ s.worker w = .finished := by
  cases hw : s.worker w with
  | absent => exact .inl rfl
  | blocked notified =>
    cases notified with
    | true => simp [workerStep, hw, PoolCore.lockWorker, hfree] at hstep
    | false => exact .inr (.inl rfl)
  | finished => exact .inr (.inr rfl)
  | firstTest | loopTest | destructing => rw [hw] at hout; cases hout
  | fetch | destruct => simp [workerStep, hw, PoolCore.lockWorker, hfree] at hstep
  | running task | exiting => simp [workerStep, hw] at hstep

/-- While the monitor is free, an owner that cannot take a step sleeps or has
returned. -/
theorem main_waits (hfree : s.monitor = none) (hout : s.main.holds = false)
    (hstep : mainStep client s none = none) :
    s.main = .waitBlocked false ∨ s.main = .terminateBlocked false ∨ s.main = .returned := by
  cases hpc : s.main with
  | waitBlocked notified =>
    cases notified with
    | true => simp [mainStep, hpc, PoolCore.lockMain, hfree] at hstep
    | false => exact .inl rfl
  | terminateBlocked notified =>
    cases notified with
    | true => simp [mainStep, hpc, PoolCore.lockMain, hfree] at hstep
    | false => exact .inr (.inl rfl)
  | returned => exact .inr (.inr rfl)
  | construct | schedule | wait | terminate =>
    simp [mainStep, hpc, PoolCore.lockMain, hfree] at hstep
  | client k =>
    simp only [mainStep, hpc] at hstep
    split at hstep <;> exact absurd hstep (by simp)
  | _ => rw [hpc] at hout; cases hout

/-! ## Progress -/

/-- **The pool makes progress.** While the owner has not returned, some thread
can take a step, if there is a worker at all or nothing is pending. -/
theorem progress (hinv : PoolInv s) (hworkers : 0 < n ∨ s.scheduler = [])
    (hmain : s.main ≠ .returned) : ¬ Stuck (step client) Act.ofThread s := by
  intro hstuck
  cases hmon : s.monitor with
  | some holder =>
    cases holder with
    | main =>
      obtain ⟨a, hthread, hmoves⟩ := main_holder_moves hinv (hinv.lock.main.mp hmon)
      exact hmoves (hstuck a hthread)
    | worker w =>
      exact worker_holder_moves ((hinv.lock.worker w).mp hmon) (hstuck (.worker w) trivial)
  | none =>
    have hout : s.main.holds = false := by
      rw [Bool.eq_false_iff]
      intro hin
      rw [hinv.lock.main.mpr hin] at hmon
      cases hmon
    have hidle : mainStep client s none = none := hstuck (.main none) trivial
    have hwaits := main_waits hmon hout hidle
    -- the pool is constructed, so no worker is absent
    have hcreated : s.main.creating = false := by
      rcases hwaits with h | h | h <;> rw [h] <;> rfl
    have hsleep : ∀ v, s.worker v = .blocked false ∨ s.worker v = .finished := by
      intro v
      have hvout : (s.worker v).holds = false := by
        rw [Bool.eq_false_iff]
        intro hin
        rw [(hinv.lock.worker v).mpr hin] at hmon
        cases hmon
      rcases worker_waits hmon hvout (hstuck (.worker v) trivial) with h | h | h
      · exact absurd h (hinv.grow.complete hcreated v)
      · exact .inl h
      · exact .inr h
    have hactive : s.activeWorkerCount = 0 := by
      rw [hinv.count.active, countWhere_eq_zero]
      intro v
      rcases hsleep v with h | h <;> rw [h] <;> rfl
    rcases hwaits with hblocked | hblocked | hreturned
    · -- the owner sleeps in `wait`, with tasks pending and all workers asleep
      have hflag : s.terminateAllWorkers = false := by
        rw [hinv.term.flag, hblocked]
        rfl
      have htasks : s.scheduler ≠ [] := by
        rcases hinv.wake.waiting hblocked with h | h
        · omega
        · exact h
      have hn : 0 < n := by
        rcases hworkers with h | h
        · exact h
        · exact absurd h htasks
      -- somebody sees to the pending tasks: not asleep, and not finished either
      obtain ⟨v, hv⟩ := hinv.wake.served hn hcreated hflag htasks
      rcases hsleep v with h | h
      · rw [h] at hv
        cases hv
      · have hstay := (hinv.term.steady hflag).2 v
        rw [h] at hstay
        cases hstay
    · -- the owner sleeps in `terminate_all_workers`, but nobody is active
      have hpos := hinv.wake.terminating hblocked
      omega
    · exact hmain hreturned

/-- With a worker, no run of the pool deadlocks, whatever its owner does. -/
theorem never_deadlocked (hn : 0 < n) (h : Reachable (step client) PoolCore.init s) :
    ¬ Deadlocked client s := by
  intro hdead
  obtain ⟨hmain, hstuck⟩ := hdead
  exact progress (reachable_poolInv h) (.inl hn) hmain hstuck

/-! ## An owner without tasks -/

/-- The owner has scheduled nothing and is not about to. -/
structure IdleInv (client : Client κ τ) (s : PoolCore κ τ n) : Prop where
  start : ∀ k, s.main = .client k → k = client.start
  never : ∀ task k, s.main ≠ .schedule task k ∧ s.main ≠ .scheduling task k
  empty : s.scheduler = []

theorem mainMove_idleInv {s' : PoolCore κ τ n} (hfin : client.next client.start = .finished)
    (hinv : IdleInv client s) (h : MainMove client s s') : IdleInv client s' := by
  have hfinish : ∀ {k}, s.main = .client k → client.next k = .finished := by
    intro k hk
    rw [hinv.start k hk, hfin]
  cases h with
  | @lock pc hlock =>
    refine ⟨?_, ?_, hinv.empty⟩
    · intro k hk
      subst hk
      exact absurd (MainPc.afterLock_holds hlock) (by simp [MainPc.holds])
    · intro task k
      cases hmain : s.main with
      | schedule task' k' => exact absurd hmain (hinv.never task' k').1
      | waitBlocked b | terminateBlocked b =>
        rw [hmain] at hlock
        cases b with
        | true => cases hlock; simp
        | false => cases hlock
      | construct | wait | terminate => rw [hmain] at hlock; cases hlock; simp
      | _ => rw [hmain] at hlock; cases hlock
  | resizeRefused | resizeDown | created =>
    exact ⟨fun k hk => (by cases hk; rfl), by simp, hinv.empty⟩
  | compute hmain hnext | schedule hmain hnext =>
    rw [hfinish hmain] at hnext
    cases hnext
  | pushNotify hmain | push hmain => exact absurd hmain (hinv.never _ _).2
  | create => exact ⟨hinv.start, hinv.never, hinv.empty⟩
  | resizeUp | finish | waitBlock | waited | terminateAll | terminateBlock | startJoin | join
  | joined => exact ⟨fun k hk => (by cases hk), by simp, hinv.empty⟩

/-- A notification does not take the owner back to its own program. -/
theorem IdleInv.notified (hinv : IdleInv client s) :
    (∀ k, s.main.notified = .client k → k = client.start) ∧
      ∀ task k, s.main.notified ≠ .schedule task k ∧ s.main.notified ≠ .scheduling task k := by
  cases hmain : s.main with
  | waitBlocked | terminateBlocked => simp [MainPc.notified]
  | _ =>
    have hsame : s.main.notified = s.main := by rw [hmain]; rfl
    rw [← hmain, hsame]
    exact ⟨hinv.start, hinv.never⟩

theorem workerMove_idleInv {s' : PoolCore κ τ n} (hinv : IdleInv client s)
    (h : WorkerMove s w s') : IdleInv client s' := by
  cases h with
  | sleep | destructed => exact ⟨hinv.notified.1, hinv.notified.2, hinv.empty⟩
  | take hw htask => rw [hinv.empty] at htask; cases htask
  | lock | wake | leave | stay | done | exit => exact ⟨hinv.start, hinv.never, hinv.empty⟩

/-- An owner whose program is finished at once schedules nothing in any run. -/
theorem reachable_idleInv (hfin : client.next client.start = .finished)
    (h : Reachable (step client) (PoolCore.init : PoolCore κ τ n) s) : IdleInv client s := by
  refine h.invariant ⟨fun k hk => (by cases hk), by simp [PoolCore.init], rfl⟩ ?_
  intro s a s' hinv hstep
  rcases step_cases hstep with h | ⟨w, h⟩ | rfl | ⟨w, rfl⟩
  · exact mainMove_idleInv hfin hinv h
  · exact workerMove_idleInv hinv h
  · exact ⟨hinv.notified.1, hinv.notified.2, hinv.empty⟩
  · exact ⟨hinv.start, hinv.never, hinv.empty⟩

/-- Such an owner does not deadlock, not even without workers. -/
theorem idle_never_deadlocked (hfin : client.next client.start = .finished)
    (h : Reachable (step client) (PoolCore.init : PoolCore κ τ n) s) : ¬ Deadlocked client s := by
  intro hdead
  obtain ⟨hmain, hstuck⟩ := hdead
  exact progress (reachable_poolInv h) (.inr (reachable_idleInv hfin h).empty) hmain hstuck

/-! ## No workers -/

/-- From `k` on, the owner schedules these tasks and finishes. -/
inductive Client.Schedules (client : Client κ τ) : κ → List τ → Prop where
  | finished {k} (h : client.next k = .finished) : Schedules client k []
  | compute {k k' ts} (h : client.next k = .compute k') (hrest : Schedules client k' ts) :
      Schedules client k ts
  | schedule {k task k' ts} (h : client.next k = .schedule task k')
      (hrest : Schedules client k' ts) : Schedules client k (task :: ts)

/-- A pool without workers, with its owner at `main` and these tasks pending. -/
def alone (main : MainPc κ τ 0) (tasks : List τ) : PoolCore κ τ 0 :=
  { (PoolCore.init : PoolCore κ τ 0) with main := main, scheduler := tasks }

theorem alone_start (client : Client κ τ) :
    Reachable (step client) PoolCore.init (alone (.client client.start) []) :=
  ⟨[.main none, .main none, .main none], rfl⟩

/-- The owner gets through its program by itself, to where it waits. -/
theorem alone_waits {k : κ} {ts : List τ} (h : client.Schedules k ts) :
    ∀ pending : List τ, pending ++ ts ≠ [] →
      Reachable (step client) (alone (.client k) pending)
        (alone (.waitBlocked false) (pending ++ ts)) := by
  induction h with
  | @finished k hnext =>
    intro pending htasks
    rw [List.append_nil] at htasks ⊢
    have hfinish : step client (alone (.client k) pending) (.main none)
        = some (alone .wait pending) := by
      simp [step, mainStep, alone, hnext]
    have hblock : run (step client) (alone .wait pending) [.main none, .main none]
        = some (alone (.waitBlocked false) pending) := by
      simp [run, step, mainStep, alone, PoolCore.lockMain, PoolCore.init, htasks]
    exact ((Reachable.refl _ _).step hfinish).trans ⟨_, hblock⟩
  | @compute k k' ts hnext _ ih =>
    intro pending htasks
    have hcompute : step client (alone (.client k) pending) (.main none)
        = some (alone (.client k') pending) := by
      simp [step, mainStep, alone, hnext]
    exact ((Reachable.refl _ _).step hcompute).trans (ih pending htasks)
  | @schedule k task k' ts hnext _ ih =>
    intro pending _
    have hschedule : step client (alone (.client k) pending) (.main none)
        = some (alone (.schedule task k') pending) := by
      simp [step, mainStep, alone, hnext]
    have hpush : run (step client) (alone (.schedule task k') pending) [.main none, .main none]
        = some (alone (.client k') (pending ++ [task])) := by
      simp [run, step, mainStep, alone, PoolCore.lockMain, PoolCore.init, scheduleStep]
    have hrest := ih (pending ++ [task]) (by simp)
    rw [List.append_assoc] at hrest
    exact ((Reachable.refl _ _).step hschedule).trans (.trans ⟨_, hpush⟩ hrest)

/-- A sleeping owner without workers is deadlocked. -/
theorem alone_deadlocked (tasks : List τ) :
    Deadlocked client (alone (.waitBlocked false) tasks) := by
  refine ⟨by simp [alone], ?_⟩
  intro a hthread
  cases a with
  | main chosen => rfl
  | worker w => exact w.elim0
  | spuriousMain => exact absurd hthread id
  | spuriousWorker w => exact absurd hthread id

/-- **Without a worker, an owner that schedules a task deadlocks.** -/
theorem no_workers_deadlock {ts : List τ} (h : client.Schedules client.start ts) (hts : ts ≠ []) :
    ∃ s : PoolCore κ τ 0, Reachable (step client) PoolCore.init s ∧ Deadlocked client s := by
  have hwaits := alone_waits h [] (by simpa using hts)
  exact ⟨_, (alone_start client).trans hwaits, alone_deadlocked _⟩

end Satf.Pool
