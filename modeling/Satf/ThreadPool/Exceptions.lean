import Satf.ThreadPool.Core

/-!
# What a task may throw

Nothing in the pool catches what a task throws: it leaves `execute_task` and
`worker_thread::run`, whose `scope_guard` calls `died_unexpectedly` on the way,
and so the function of the worker's thread. There `boost::thread` catches
`thread_interrupted`, and nothing else; any other exception ends in
`std::terminate`.

The pool's own steps have the first case, `Act.throws`. Here a pool is part of a
process, in which the second one may happen too.

> `process_run`: a process in which no task throws anything else does what its
> pool does.
-/

namespace Satf.ThreadPool

open Satf.Lib

variable {σ τ ι : Type}

/-- A process with a pool in it, which may have been terminated. -/
inductive Process (σ τ ι : Type) where
  | running (pool : PoolState σ τ ι)
  | terminated

/-- A step of the pool, or the task that worker `w` is running throws something
else than `boost::thread_interrupted`. -/
inductive ProcessAct (τ ι : Type) where
  | pool (a : Act τ ι)
  | uncaught (w : Nat)

/-- A step that some thread takes of its own. -/
def ProcessAct.ofThread : ProcessAct τ ι → Prop
  | .pool a => a.ofThread
  | .uncaught _ => True

/-- What the pool does in a run of the process. -/
def poolActs (as : List (ProcessAct τ ι)) : List (Act τ ι) :=
  as.filterMap fun
    | .pool a => some a
    | .uncaught _ => none

/-- A condition on the steps of the pool. -/
def ProcessAct.meets (cond : PoolState σ τ ι → Act τ ι → Bool) :
    Process σ τ ι → ProcessAct τ ι → Bool
  | .running s, .pool a => cond s a
  | _, _ => true

variable [DecidableEq ι] (policy : SchedulingPolicy σ τ)

/-- One step of the process. -/
def processStep : Process σ τ ι → ProcessAct τ ι → Option (Process σ τ ι)
  | .running s, .pool a => (step policy s a).map .running
  | .running s, .uncaught w => (throwStep s w).map fun _ => .terminated
  | .terminated, _ => none

variable {policy} {s : PoolState σ τ ι} {p : Process σ τ ι}

/-- Where no task throws anything else, a run of the process is one of its
pool. -/
theorem process_run : ∀ {as : List (ProcessAct τ ι)} {s : PoolState σ τ ι},
    (∀ w, .uncaught w ∉ as) → run (processStep policy) (.running s) as = some p →
    ∃ t, p = .running t ∧ run (step policy) s (poolActs as) = some t
  | [], s, _, hrun => by
    cases hrun
    exact ⟨s, rfl, rfl⟩
  | .uncaught w :: as, _, hcaught, _ => absurd List.mem_cons_self (hcaught w)
  | .pool a :: as, s, hcaught, hrun => by
    simp only [run, processStep, Option.bind_eq_some_iff, Option.map_eq_some_iff] at hrun
    obtain ⟨_, ⟨s', hstep, rfl⟩, hrun⟩ := hrun
    obtain ⟨t, hp, ht⟩ := process_run (fun w hw => hcaught w (List.mem_cons_of_mem _ hw)) hrun
    refine ⟨t, hp, ?_⟩
    show (step policy s a).bind (fun s' => run (step policy) s' (poolActs as)) = some t
    rw [hstep]
    exact ht

/-- What its steps meet, those of the pool meet. -/
theorem process_meets {cond : PoolState σ τ ι → Act τ ι → Bool} :
    ∀ {as : List (ProcessAct τ ι)} {s : PoolState σ τ ι}, (∀ w, .uncaught w ∉ as) →
      Meets (processStep policy) (fun p a => ProcessAct.meets cond p a = true) (.running s) as →
      Meets (step policy) (fun s a => cond s a = true) s (poolActs as)
  | [], _, _, _ => trivial
  | .uncaught w :: as, _, hcaught, _ => absurd List.mem_cons_self (hcaught w)
  | .pool a :: as, s, hcaught, hmeets => by
    refine ⟨hmeets.1, fun s' hstep => ?_⟩
    refine process_meets (fun w hw => hcaught w (List.mem_cons_of_mem _ hw)) (hmeets.2 _ ?_)
    show (step policy s a).map Process.running = _
    rw [hstep]
    rfl

/-- Where no thread of the process can move, none of its pool can. -/
theorem process_stuck
    (h : Stuck (processStep policy) ProcessAct.ofThread (.running s)) :
    Stuck (step policy) Act.ofThread s :=
  fun a ha => Option.map_eq_none_iff.mp (h (.pool a) ha)

end Satf.ThreadPool
