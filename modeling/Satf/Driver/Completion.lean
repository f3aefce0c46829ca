import Satf.Driver.DataSets
import Satf.Driver.Shutdown
import Satf.Pool.Termination

/-!
# Every run of the driver comes to its end

`run_never_stuck_iff` says that with a thread some thread can always go on;
here is that they cannot go on forever. A pass of the loop is at most 19 steps
of `main`: the test, the four pushes and the sort, twelve calls of `schedule`
and the increment.

> `main_run_ends`: with bounds in order, below the largest one and with a
> thread, `main` returns and all threads end after a number of steps linear in
> `max_size` and in the number of threads, with every task executed once.

Bounds that the conversion to `int` puts out of order never come to the loop:
the distribution refuses them.
-/

namespace Satf.Driver

open Satf.Lib Satf.Measure Satf.Pool

variable (isMidpoint : UInt32 → UInt32 → Bool) (o : Options) (dice : Nat → Int)

theorem iteration_length_le (i : UInt32) (x : Int) : (iteration isMidpoint o i x).length ≤ 17 := by
  have hpushes : (pushes isMidpoint o i x).length ≤ 5 := by
    unfold pushes
    split
    · exact Nat.le_refl _
    · exact Nat.le_succ _
  have hschedules : schedules.length = 12 := rfl
  unfold iteration
  rw [List.length_append]
  split
  · rw [List.length_nil]
    omega
  · omega

/-- The rest of an iteration takes a step for each act and one to count. -/
theorem body_endsIn {i : UInt32} {drawn m : Nat} :
    ∀ (acts : List MainAct) (data : Vectors),
      (mainClient isMidpoint o dice).EndsIn
        ⟨.test (i + 1) (drawn + 1), vectorsAfter data acts⟩ m →
      (mainClient isMidpoint o dice).EndsIn ⟨.body i drawn acts, data⟩ (m + acts.length + 1) := by
  intro acts
  induction acts with
  | nil => exact fun data h => .compute rfl h
  | cons act acts ih =>
    intro data h
    cases act with
    | schedule a j => exact .schedule rfl (ih data h)
    | pushBack j x => exact .compute rfl (ih (MainAct.vectors data (.pushBack j x)) h)
    | sort j => exact .compute rfl (ih (MainAct.vectors data (.sort j)) h)

/-- With `m` passes to go, the loop ends within `19 m` steps. -/
theorem loop_endsIn (hmax : o.maxSize.toNat + 1 < 2 ^ 32) :
    ∀ (m : Nat) (i : UInt32) (drawn : Nat) (data : Vectors), i.toNat + m = o.maxSize.toNat + 1 →
      ∃ k, k ≤ 19 * m ∧ (mainClient isMidpoint o dice).EndsIn ⟨.test i drawn, data⟩ k := by
  intro m
  induction m with
  | zero =>
    intro i drawn data hi
    have hend : ¬ i ≤ o.maxSize := by
      rw [UInt32.le_iff_toNat_le]
      omega
    have hnext : (mainClient isMidpoint o dice).next ⟨.test i drawn, data⟩ = .finished :=
      if_neg hend
    exact ⟨0, Nat.le_refl _, .finished hnext⟩
  | succ m ih =>
    intro i drawn data hi
    have hgo : i ≤ o.maxSize := by
      rw [UInt32.le_iff_toNat_le]
      omega
    -- `i++` does not wrap here
    have hcount : (i + 1).toNat = i.toNat + 1 := by
      rw [UInt32.toNat_add, UInt32.toNat_one, Nat.mod_eq_of_lt (by omega)]
    have hnext : (mainClient isMidpoint o dice).next ⟨.test i drawn, data⟩
        = .compute ⟨.body i drawn (iteration isMidpoint o i (dice drawn)), data⟩ := if_pos hgo
    obtain ⟨k, hk, hends⟩ := ih (i + 1) (drawn + 1)
      (vectorsAfter data (iteration isMidpoint o i (dice drawn))) (by omega)
    have hlen := iteration_length_le isMidpoint o i (dice drawn)
    exact ⟨_, by omega, .compute hnext (body_endsIn isMidpoint o dice _ data hends)⟩

theorem Covers.perm {lo hi : Nat} {ts us : List Task} (h : Covers lo hi ts) (hp : us.Perm ts) :
    Covers lo hi us where
  once a d s := (hp.countP_eq _).trans (h.once a d s)
  equal t ht t' ht' := h.equal t (hp.mem_iff.mp ht) t' (hp.mem_iff.mp ht')

/-- Its size range as `main` starts the loop, from 1. -/
theorem main_endsIn (hmax : o.maxSize ≠ 4294967295) :
    ∃ k, k ≤ 19 * o.maxSize.toNat ∧
      (mainClient isMidpoint o dice).EndsIn (mainClient isMidpoint o dice).start k :=
  loop_endsIn isMidpoint o dice (Options.maxSize_succ_lt hmax) o.maxSize.toNat 1 0 emptyVectors
    (Nat.add_comm _ _)

/-- **Every run of the driver comes to its end.** Below the largest unsigned
bound and with at least one thread, the sign bit in neither or in both bounds,
and a distribution that accepts bounds that are in order, whatever the
interleaving: the threads take at most `285 max_size + 18 threads + 10` steps,
and 8 more for each wake-up without a notification; and where none of them can
take another one, `main` has returned, all workers have ended, and the tasks
executed are one for each size, data set and algorithm. -/
theorem main_run_ends {uniformInt : Int → Int → Option (Nat → Int)}
    (haccepts : ∀ lo hi, lo ≤ hi → (uniformInt lo hi).isSome = true)
    (hbounds : o.maxSize.toNat < 2 ^ 31 ∨ 2 ^ 31 ≤ o.minSize.toNat)
    (hmax : o.maxSize ≠ 4294967295) (hthreads : o.threadCount ≠ 0) :
    ∃ client, mainOnPool isMidpoint o uniformInt = some client ∧
      ∀ (as : List (Pool.Act o.threadCount.toNat))
        (s : PoolCore LoopState Task o.threadCount.toNat),
        run (Pool.step client) PoolCore.init as = some s →
        as.countP Pool.Act.byThread
            ≤ 285 * o.maxSize.toNat + 18 * o.threadCount.toNat + 10
              + 8 * as.countP (fun a => !a.byThread) ∧
          (Stuck (Pool.step client) Pool.Act.ofThread s →
            s.main = .returned ∧ (∀ w, s.worker w = .finished) ∧
              Covers (max o.minSize.toNat 1) o.maxSize.toNat
                ((finishes (poolHistory client _ as)).map Prod.snd)) := by
  obtain ⟨dice, hdice⟩ :=
    Option.isSome_iff_exists.mp (haccepts _ _ ((bounds_ordered_iff o).mpr hbounds))
  refine ⟨mainClient isMidpoint o dice, by rw [mainOnPool, hdice]; rfl, fun as s hrun => ?_⟩
  have hn : 0 < o.threadCount.toNat :=
    Nat.pos_of_ne_zero fun h => hthreads (UInt32.toNat_inj.mp h)
  obtain ⟨k, hk, hends⟩ := main_endsIn isMidpoint o dice hmax
  obtain ⟨script, hscript, hcov⟩ := loop_covers isMidpoint o dice hmax
  have hprog := loop_schedules isMidpoint o dice (o.maxSize.toNat + 1) 1 0 emptyVectors script
    (hscript _ (Nat.le_refl _))
  constructor
  · have hle := run_steps_le hends hrun
    omega
  · intro hstuck
    obtain ⟨hret, hfinished⟩ := stuck_over hn ⟨as, hrun⟩ hstuck
    exact ⟨hret, hfinished, hcov.perm (run_returned hprog hrun hret).2⟩

/-- One size and one thread: `main` schedules, the worker executes the twelve
tasks and falls asleep, `main` returns, and the worker leaves. -/
def oneSizeToTheEnd : List (Pool.Act 1) :=
  List.replicate 47 (.main none) ++ List.replicate 51 (.worker (Fin.last 0))
    ++ List.replicate 6 (.main none) ++ List.replicate 5 (.worker (Fin.last 0))

/-- A distribution that returns its lower bound. -/
def lowest (lo hi : Int) : Option (Nat → Int) := if lo ≤ hi then some fun _ => lo else none

set_option maxRecDepth 10000 in
/-- The theorem on that run. -/
theorem main_run_ends_one_size :
    ∃ client, mainOnPool (fun _ _ => false) ⟨1, 1, 1, UInt32.le_refl _⟩ lowest = some client ∧
      ∃ s, run (Pool.step client) PoolCore.init oneSizeToTheEnd = some s ∧ s.workerCount = 0 ∧
        oneSizeToTheEnd.countP Pool.Act.byThread
          ≤ 285 * 1 + 18 * 1 + 10 + 8 * oneSizeToTheEnd.countP (fun a => !a.byThread) := by
  have haccepts : ∀ lo hi, lo ≤ hi → (lowest lo hi).isSome = true :=
    fun lo hi h => by rw [lowest, if_pos h]; rfl
  obtain ⟨client, hclient, hruns⟩ := main_run_ends (fun _ _ => false) ⟨1, 1, 1, UInt32.le_refl _⟩
    haccepts (.inl (by decide)) (by decide) (by decide)
  have hrun : (run
      (Pool.step (mainClient (fun _ _ => false) ⟨1, 1, 1, UInt32.le_refl _⟩ fun _ => 1))
      PoolCore.init oneSizeToTheEnd).map (fun s => s.workerCount) = some 0 := rfl
  have hsame : mainClient (fun _ _ => false) ⟨1, 1, 1, UInt32.le_refl _⟩ (fun _ => 1) = client :=
    Option.some.inj hclient
  rw [hsame] at hrun
  obtain ⟨s, hs, hzero⟩ := Option.map_eq_some_iff.mp hrun
  exact ⟨client, hclient, s, hs, hzero, (hruns _ s hs).1⟩

end Satf.Driver
