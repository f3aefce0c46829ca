import Satf.Driver.Main
import Satf.Pool.Progress

/-!
# Running the driver loop on the pool

`main` constructs the pool with `thread_count` workers, schedules tasks in its
loop and leaves the rest to the pool's destructor. Here the loop is the pool's
`Client`: one step for every test of the loop condition and every act of the
body, interleaved with the workers in any way.

> `run_never_stuck_iff`: no state of any run is stuck if and only if there is
> at least one worker, or `max_size` is 0 and nothing is scheduled.

`main` passes the thread count on as it is. 0 is accepted as an option, and is
also what `hardware_concurrency()` may report.
-/

namespace Satf.Driver

open Satf.Lib Satf.Measure Satf.Pool

/-- A place in the loop: about to test the condition, or in the body with some
of its acts to go. -/
inductive LoopPc where
  | test (i : UInt32) (drawn : Nat)
  | body (i : UInt32) (drawn : Nat) (acts : List MainAct)

/-- `main`'s own state while it runs the loop. -/
structure LoopState where
  pc : LoopPc
  data : Vectors

variable (isMidpoint : UInt32 → UInt32 → Bool) (o : Options) (dice : Nat → Int)

/-- One step of the loop. -/
def loopStep (s : LoopState) : ClientStep LoopState Task :=
  match s.pc with
  | .test i drawn =>
    if i ≤ o.maxSize then .compute ⟨.body i drawn (iteration isMidpoint o i (dice drawn)), s.data⟩
    else .finished
  | .body i drawn [] => .compute ⟨.test (i + 1) (drawn + 1), s.data⟩
  | .body i drawn (.schedule a j :: acts) => .schedule ⟨a, s.data j, j⟩ ⟨.body i drawn acts, s.data⟩
  | .body i drawn (act :: acts) => .compute ⟨.body i drawn acts, act.vectors s.data⟩

/-- `main` between the pool's construction and its destruction, where the
distribution has accepted its bounds and yields the values of `dice`. -/
def mainClient : Client LoopState Task where
  start := ⟨.test 1 0, emptyVectors⟩
  next := loopStep isMidpoint o dice

/-- `main` on the pool, or `none` where the distribution refuses its bounds: it
is built between the pool and the loop, and the run ends there. -/
def mainOnPool (uniformInt : Int → Int → Option (Nat → Int)) : Option (Client LoopState Task) :=
  (uniformInt (intOfUnsigned o.minSize) (intOfUnsigned o.maxSize)).map (mainClient isMidpoint o)

/-! ## What the client schedules -/

/-- The rest of an iteration, and what comes after it. -/
theorem body_schedules {i : UInt32} {drawn : Nat} {ts : List Task} :
    ∀ (acts : List MainAct) (data : Vectors),
      (mainClient isMidpoint o dice).Schedules
        ⟨.test (i + 1) (drawn + 1), vectorsAfter data acts⟩ ts →
      (mainClient isMidpoint o dice).Schedules ⟨.body i drawn acts, data⟩
        (scheduledTasks data acts ++ ts) := by
  intro acts
  induction acts with
  | nil => exact fun data h => .compute rfl h
  | cons act acts ih =>
    intro data h
    cases act with
    | schedule a j => exact .schedule rfl (ih data h)
    | pushBack j x => exact .compute rfl (ih (MainAct.vectors data (.pushBack j x)) h)
    | sort j => exact .compute rfl (ih (MainAct.vectors data (.sort j)) h)

/-- A loop that ends has scheduled the tasks of its script. -/
theorem loop_schedules :
    ∀ (fuel : Nat) (i : UInt32) (drawn : Nat) (data : Vectors) (script : List MainAct),
      forLoop isMidpoint o dice fuel i drawn = some script →
      (mainClient isMidpoint o dice).Schedules ⟨.test i drawn, data⟩ (scheduledTasks data script) := by
  intro fuel
  induction fuel with
  | zero => intro i drawn data script h; cases h
  | succ fuel ih =>
    intro i drawn data script h
    rw [forLoop] at h
    by_cases hi : i ≤ o.maxSize
    · rw [if_pos hi] at h
      obtain ⟨rest, hrest, rfl⟩ := Option.map_eq_some_iff.mp h
      rw [scheduledTasks_append]
      have hnext : (mainClient isMidpoint o dice).next ⟨.test i drawn, data⟩
          = .compute ⟨.body i drawn (iteration isMidpoint o i (dice drawn)), data⟩ := if_pos hi
      refine .compute hnext ?_
      exact body_schedules isMidpoint o dice _ data (ih (i + 1) (drawn + 1) _ rest hrest)
    · rw [if_neg hi] at h
      cases h
      have hnext : (mainClient isMidpoint o dice).next ⟨.test i drawn, data⟩ = .finished :=
        if_neg hi
      exact .finished hnext

/-- Between 1 and the largest value, every `max_size` gives a task. -/
theorem main_schedules (hmax : o.maxSize ≠ 4294967295) (hpos : o.maxSize ≠ 0) :
    ∃ ts, ts ≠ [] ∧
      (mainClient isMidpoint o dice).Schedules (mainClient isMidpoint o dice).start ts := by
  obtain ⟨script, hends, hcov⟩ := loop_covers isMidpoint o dice hmax
  refine ⟨scheduledTasks emptyVectors script, ?_,
    loop_schedules isMidpoint o dice (o.maxSize.toNat + 1) 1 0 emptyVectors script
      (hends _ (Nat.le_refl _))⟩
  intro hnil
  -- the task for the largest size is there
  have hone := hcov.once .heapSort .random o.maxSize.toNat
  have hmin := UInt32.le_iff_toNat_le.mp o.accepted
  have hne : o.maxSize.toNat ≠ 0 := fun h => hpos (UInt32.toNat_inj.mp h)
  have hin : max o.minSize.toNat 1 ≤ o.maxSize.toNat := by omega
  rw [hnil, if_pos ⟨by simp, hin, Nat.le_refl _⟩] at hone
  cases hone

/-- Without workers and with something to schedule, some run gets stuck. -/
theorem no_threads_deadlock {n : Nat} (hn : n = 0) (hmax : o.maxSize ≠ 4294967295)
    (hpos : o.maxSize ≠ 0) :
    ∃ s : PoolCore LoopState Task n,
      Reachable (step (mainClient isMidpoint o dice)) PoolCore.init s ∧
        Deadlocked (mainClient isMidpoint o dice) s := by
  subst hn
  obtain ⟨ts, hts, hschedules⟩ := main_schedules isMidpoint o dice hmax hpos
  exact no_workers_deadlock hschedules hts

/-! ## The result -/

/-- **A run does not get stuck, given a thread.** For bounds below the largest
unsigned value, no state that the threads of the program reach in any
interleaving is stuck before `main` has returned, if and only if the thread
count is not 0 or `max_size` is. -/
theorem run_never_stuck_iff (hmax : o.maxSize ≠ 4294967295) :
    (∀ s : PoolCore LoopState Task o.threadCount.toNat,
      Reachable (step (mainClient isMidpoint o dice)) PoolCore.init s →
        ¬ Deadlocked (mainClient isMidpoint o dice) s) ↔
    o.threadCount ≠ 0 ∨ o.maxSize = 0 := by
  constructor
  · intro hnever
    by_contra hboth
    rw [not_or, not_not] at hboth
    have hn : o.threadCount.toNat = 0 := by rw [hboth.1]; rfl
    obtain ⟨s, hreach, hdead⟩ := no_threads_deadlock isMidpoint o dice hn hmax hboth.2
    exact hnever s hreach hdead
  · intro hcond s hreach
    rcases hcond with hthreads | hzero
    · have hn : 0 < o.threadCount.toNat :=
        Nat.pos_of_ne_zero fun h => hthreads (UInt32.toNat_inj.mp h)
      exact never_deadlocked hn hreach
    · refine idle_never_deadlocked ?_ hreach
      have hout : ¬ (1 : UInt32) ≤ o.maxSize := by
        rw [hzero]
        decide
      exact if_neg hout

/-- The theorem for one thread and one size: no run gets stuck. -/
theorem run_never_stuck_one_thread :
    ¬ ∃ s : PoolCore LoopState Task 1,
      Reachable (step (mainClient (fun _ _ => false) ⟨1, 1, 1, UInt32.le_refl _⟩ fun _ => 1))
        PoolCore.init s ∧
      Deadlocked (mainClient (fun _ _ => false) ⟨1, 1, 1, UInt32.le_refl _⟩ fun _ => 1) s := by
  intro hstuck
  obtain ⟨s, hreach, hdead⟩ := hstuck
  exact (run_never_stuck_iff (fun _ _ => false) ⟨1, 1, 1, UInt32.le_refl _⟩ (fun _ => 1)
    (by decide)).mpr (.inl (by decide)) s hreach hdead

/-- With no thread and one size, `main` waits in the pool's destructor for
tasks that nobody executes. -/
theorem run_stuck_no_threads :
    ∃ s : PoolCore LoopState Task 0,
      Reachable (step (mainClient (fun _ _ => false) ⟨1, 1, 0, UInt32.le_refl _⟩ fun _ => 1))
        PoolCore.init s ∧
      Deadlocked (mainClient (fun _ _ => false) ⟨1, 1, 0, UInt32.le_refl _⟩ fun _ => 1) s :=
  no_threads_deadlock _ _ _ rfl (by decide) (by decide)

end Satf.Driver
