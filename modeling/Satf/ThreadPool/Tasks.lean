import Satf.Lib.Count
import Satf.ThreadPool.Core
import Mathlib.Algebra.Order.Group.Multiset
import Mathlib.Tactic.Abel

/-!
# What becomes of the tasks

Between the pool's callers and its workers the tasks go through the scheduler,
which only the holder of the monitor touches. So what the threads do to it
together is what one thread could have done alone (`Replays`), and a task that
has been scheduled is pending, dropped or started, once.

> `tasks_accounted`: in every run of a pool with any scheduling policy, the
> history replays on the scheduler alone; the tasks scheduled are those
> started, dropped by `clear` and pending; and each worker ends what it has
> started, in that order.
-/

namespace Satf.ThreadPool

open Satf.Lib

variable {σ τ ι : Type} {policy : SchedulingPolicy σ τ} {s s' : PoolState σ τ ι}

/-! ## Histories -/

/-- One thread does to the scheduler what the events say, from `c` to `c'`. -/
def Replays (policy : SchedulingPolicy σ τ) : σ → List (Event τ) → σ → Prop
  | c, [], c' => c' = c
  | c, .scheduled task :: h, c' => ∃ d, policy.push c task = some d ∧ Replays policy d h c'
  | _, .cleared _ :: h, c' => Replays policy policy.clear h c'
  | c, .started _ task :: h, c' =>
    policy.empty c = false ∧ policy.top c = some task ∧ Replays policy (policy.pop c) h c'
  | c, .finished _ _ :: h, c' | c, .threw _ _ :: h, c' => Replays policy c h c'

theorem Replays.append {es : List (Event τ)} {d e : σ} :
    ∀ {h : List (Event τ)} {c : σ}, Replays policy c h d → Replays policy d es e →
      Replays policy c (h ++ es) e
  | [], c, hh, he => by cases hh; exact he
  | .scheduled task :: h, c, ⟨c', hpush, hh⟩, he => ⟨c', hpush, Replays.append hh he⟩
  | .cleared dropped :: h, c, hh, he => Replays.append (h := h) hh he
  | .started w task :: h, c, ⟨hsome, htop, hh⟩, he => ⟨hsome, htop, Replays.append hh he⟩
  | .finished w task :: h, c, hh, he => Replays.append (h := h) hh he
  | .threw w task :: h, c, hh, he => Replays.append (h := h) hh he

/-- The tasks scheduled. -/
def scheduledOf (h : List (Event τ)) : Multiset τ :=
  (h.map fun
    | .scheduled task => {task}
    | _ => 0).sum

/-- The tasks dropped by `clear`. -/
def droppedOf (h : List (Event τ)) : Multiset τ :=
  (h.map fun
    | .cleared dropped => dropped
    | _ => 0).sum

/-- The tasks started, with the workers that started them, in order. -/
def starts (h : List (Event τ)) : List (Nat × τ) :=
  h.filterMap fun
    | .started w task => some (w, task)
    | _ => none

/-- The tasks that have returned or thrown, with the workers that ran them, in
order. -/
def ends (h : List (Event τ)) : List (Nat × τ) :=
  h.filterMap fun
    | .finished w task | .threw w task => some (w, task)
    | _ => none

theorem starts_append (h h' : List (Event τ)) : starts (h ++ h') = starts h ++ starts h' :=
  List.filterMap_append

/-- The task a worker is running. -/
def WorkerPc.tasks : WorkerPc τ → List τ
  | .running task => [task]
  | _ => []

/-- The tasks that worker `w` is running: one or none. -/
def runningOf (workers : List (WorkerPc τ)) (w : Nat) : List τ :=
  (workers[w]?.map WorkerPc.tasks).getD []

/-- Where every scheduled task has gone. -/
structure TaskInv (policy : SchedulingPolicy σ τ) (s : PoolState σ τ ι) (h : List (Event τ)) :
    Prop where
  replays : Replays policy policy.clear h s.scheduler
  accounted : scheduledOf h
    = (starts h).map Prod.snd + droppedOf h + policy.tasks s.scheduler
  running : ∀ w, valuesAt w (starts h) = valuesAt w (ends h) ++ runningOf s.workers w

/-! ## What one step adds -/

/-- The step leaves the scheduler and what runs alone. -/
structure SameTasks (s s' : PoolState σ τ ι) : Prop where
  scheduler : s'.scheduler = s.scheduler
  running : ∀ w, runningOf s'.workers w = runningOf s.workers w

theorem runningOf_set {workers : List (WorkerPc τ)} {w : Nat} {pc pc' : WorkerPc τ}
    (hw : workers[w]? = some pc) (v : Nat) :
    runningOf (workers.set w pc') v = if w = v then pc'.tasks else runningOf workers v := by
  unfold runningOf
  rw [List.getElem?_set]
  by_cases hv : w = v
  · subst hv
    simp [(List.getElem?_eq_some_iff.mp hw).1]
  · simp [hv]

/-- A worker moves between places where it runs nothing. -/
theorem runningOf_same {workers : List (WorkerPc τ)} {w : Nat} {pc pc' : WorkerPc τ}
    (hw : workers[w]? = some pc) (htasks : pc'.tasks = pc.tasks) (v : Nat) :
    runningOf (workers.set w pc') v = runningOf workers v := by
  rw [runningOf_set hw]
  split
  next hv =>
    subst hv
    simp [runningOf, hw, htasks]
  next => rfl

theorem runningOf_notified (workers : List (WorkerPc τ)) (v : Nat) :
    runningOf (workers.map WorkerPc.notified) v = runningOf workers v := by
  have hsame : ∀ pc : WorkerPc τ, pc.notified.tasks = pc.tasks := fun pc => by cases pc <;> rfl
  unfold runningOf
  rw [List.getElem?_map, Option.map_map]
  cases workers[v]? with
  | none => rfl
  | some pc => exact hsame pc

theorem runningOf_create (workers : List (WorkerPc τ)) (v : Nat) :
    runningOf (workers ++ [.fetch]) v = runningOf workers v := by
  unfold runningOf
  rw [List.getElem?_append]
  split
  next => rfl
  next hge =>
    rw [List.getElem?_singleton, List.getElem?_eq_none (Nat.le_of_not_lt hge)]
    split <;> rfl

theorem TaskInv.same {h : List (Event τ)} (hinv : TaskInv policy s h) (hsame : SameTasks s s') :
    TaskInv policy s' (h ++ []) := by
  rw [List.append_nil]
  exact ⟨hsame.scheduler ▸ hinv.replays, hsame.scheduler ▸ hinv.accounted,
    fun w => by rw [hsame.running w]; exact hinv.running w⟩

/-- A task is pushed. -/
theorem TaskInv.scheduled {h : List (Event τ)} {task : τ} (hinv : TaskInv policy s h)
    (hpush : policy.push s.scheduler task = some s'.scheduler)
    (hrunning : ∀ w, runningOf s'.workers w = runningOf s.workers w) :
    TaskInv policy s' (h ++ [.scheduled task]) where
  replays := hinv.replays.append ⟨_, hpush, rfl⟩
  accounted := by
    have hscheduled : scheduledOf (h ++ [.scheduled task]) = scheduledOf h + {task} := by
      simp [scheduledOf]
    have hstarts : starts (h ++ [.scheduled task]) = starts h := by simp [starts]
    have hdropped : droppedOf (h ++ [.scheduled task]) = droppedOf h := by simp [droppedOf]
    rw [hscheduled, hstarts, hdropped, hinv.accounted, policy.tasks_push hpush,
      ← Multiset.singleton_add, add_comm ({task} : Multiset τ), add_assoc]
  running := by
    intro w
    have hstarts : starts (h ++ [.scheduled task]) = starts h := by simp [starts]
    have hends : ends (h ++ [.scheduled task]) = ends h := by simp [ends]
    rw [hstarts, hends, hrunning w]
    exact hinv.running w

/-- The scheduler is cleared. -/
theorem TaskInv.cleared {h : List (Event τ)} (hinv : TaskInv policy s h)
    (hscheduler : s'.scheduler = policy.clear)
    (hrunning : ∀ w, runningOf s'.workers w = runningOf s.workers w) :
    TaskInv policy s' (h ++ [.cleared (policy.tasks s.scheduler)]) where
  replays := hinv.replays.append hscheduler
  accounted := by
    have hscheduled : scheduledOf (h ++ [.cleared (policy.tasks s.scheduler)]) = scheduledOf h := by
      simp [scheduledOf]
    have hstarts : starts (h ++ [.cleared (policy.tasks s.scheduler)]) = starts h := by
      simp [starts]
    have hdropped : droppedOf (h ++ [.cleared (policy.tasks s.scheduler)])
        = droppedOf h + policy.tasks s.scheduler := by
      simp [droppedOf]
    rw [hscheduled, hstarts, hdropped, hscheduler, policy.tasks_clear, hinv.accounted, add_zero,
      add_assoc]
  running := by
    intro w
    have hstarts : starts (h ++ [.cleared (policy.tasks s.scheduler)]) = starts h := by
      simp [starts]
    have hends : ends (h ++ [.cleared (policy.tasks s.scheduler)]) = ends h := by simp [ends]
    rw [hstarts, hends, hrunning w]
    exact hinv.running w

/-- A worker takes a task. -/
theorem TaskInv.started {h : List (Event τ)} {task : τ} {w : Nat} (hinv : TaskInv policy s h)
    (hsome : policy.empty s.scheduler = false) (htop : policy.top s.scheduler = some task)
    (hscheduler : s'.scheduler = policy.pop s.scheduler)
    (hw : s.workers[w]? = some .loopTest)
    (hworkers : s'.workers = s.workers.set w (.running task)) :
    TaskInv policy s' (h ++ [.started w task]) where
  replays := hinv.replays.append ⟨hsome, htop, hscheduler⟩
  accounted := by
    have hscheduled : scheduledOf (h ++ [.started w task]) = scheduledOf h := by simp [scheduledOf]
    have hstarts : (starts (h ++ [.started w task])).map Prod.snd
        = (starts h).map Prod.snd ++ [task] := by
      simp [starts]
    have hdropped : droppedOf (h ++ [.started w task]) = droppedOf h := by simp [droppedOf]
    obtain ⟨t, ht, htasks⟩ := policy.tasks_pop hsome
    cases htop.symm.trans ht
    rw [hscheduled, hstarts, hdropped, hscheduler, hinv.accounted, htasks, ← Multiset.coe_add,
      ← Multiset.singleton_add]
    show _ = _ + {task} + _ + _
    abel
  running := by
    intro v
    have hstarts : starts (h ++ [.started w task]) = starts h ++ [(w, task)] := by simp [starts]
    have hends : ends (h ++ [.started w task]) = ends h := by simp [ends]
    have hnone : runningOf s.workers w = [] := by simp [runningOf, hw, WorkerPc.tasks]
    rw [hstarts, hends, hworkers, runningOf_set hw, valuesAt_append, hinv.running v]
    by_cases hv : w = v
    · subst hv
      rw [if_pos rfl, hnone, List.append_nil]
      simp [valuesAt, WorkerPc.tasks]
    · rw [if_neg hv]
      simp [valuesAt, hv]

/-- A task returns or throws. -/
theorem TaskInv.ended {h : List (Event τ)} {task : τ} {w : Nat} {pc : WorkerPc τ} {e : Event τ}
    (hinv : TaskInv policy s h) (he : e = .finished w task ∨ e = .threw w task)
    (hscheduler : s'.scheduler = s.scheduler) (hw : s.workers[w]? = some (.running task))
    (hpc : pc.tasks = []) (hworkers : s'.workers = s.workers.set w pc) :
    TaskInv policy s' (h ++ [e]) where
  replays := by
    refine hinv.replays.append ?_
    rcases he with rfl | rfl <;> exact hscheduler
  accounted := by
    have hscheduled : scheduledOf (h ++ [e]) = scheduledOf h := by
      rcases he with rfl | rfl <;> simp [scheduledOf]
    have hstarts : starts (h ++ [e]) = starts h := by rcases he with rfl | rfl <;> simp [starts]
    have hdropped : droppedOf (h ++ [e]) = droppedOf h := by
      rcases he with rfl | rfl <;> simp [droppedOf]
    rw [hscheduled, hstarts, hdropped, hscheduler]
    exact hinv.accounted
  running := by
    intro v
    have hstarts : starts (h ++ [e]) = starts h := by rcases he with rfl | rfl <;> simp [starts]
    have hends : ends (h ++ [e]) = ends h ++ [(w, task)] := by
      rcases he with rfl | rfl <;> simp [ends]
    rw [hstarts, hends, hworkers, runningOf_set hw, valuesAt_append, hinv.running v]
    by_cases hv : w = v
    · subst hv
      rw [if_pos rfl, hpc]
      simp [valuesAt, runningOf, hw, WorkerPc.tasks]
    · rw [if_neg hv]
      simp [valuesAt, hv]

/-! ## Every run -/

theorem WorkerPc.afterLock_tasks {pc pc' : WorkerPc τ} (h : pc.afterLock = some pc') :
    pc'.tasks = pc.tasks := by
  cases pc with
  | fetch | destruct | died => cases h; rfl
  | _ => cases h

section
variable [DecidableEq ι] {i : ι} {w : Nat} {created : Bool} {es h : List (Event τ)} {a : Act τ ι}

theorem CallerMove.taskInv (hmove : CallerMove policy s i created s' es)
    (hinv : TaskInv policy s h) : TaskInv policy s' (h ++ es) := by
  cases hmove with
  | lock | refused | waitBlock | waited | gaveUp | resizeRefused | resizeUp | resized
  | terminateBlock | startJoin | join | joined => exact hinv.same ⟨rfl, fun _ => rfl⟩
  | resizeDown | terminateJoin | terminate => exact hinv.same ⟨rfl, runningOf_notified _⟩
  | create => exact hinv.same ⟨rfl, runningOf_create _⟩
  | push hcaller hpush => exact hinv.scheduled hpush fun _ => rfl
  | pushNotify hcaller hpush hasleep => exact hinv.scheduled hpush (runningOf_same hasleep rfl)
  | cleared => exact hinv.cleared rfl fun _ => rfl

omit [DecidableEq ι] in
theorem WorkerMove.taskInv (hmove : WorkerMove policy s w created s' es)
    (hinv : TaskInv policy s h) : TaskInv policy s' (h ++ es) := by
  cases hmove with
  | lock hw hlock => exact hinv.same ⟨rfl, runningOf_same hw (WorkerPc.afterLock_tasks hlock)⟩
  | leave hw hpc =>
    exact hinv.same ⟨rfl, runningOf_same hw (by rcases hpc with rfl | rfl <;> rfl)⟩
  | wake hw | stay hw | sleep hw | destructed hw | diedTerminating hw | replace hw | replaced hw
  | exit hw => exact hinv.same ⟨rfl, runningOf_same hw rfl⟩
  | create => exact hinv.same ⟨rfl, runningOf_create _⟩
  | take hw hsome htop => exact hinv.started hsome htop rfl hw rfl
  | returned hw => exact hinv.ended (.inl rfl) rfl hw rfl rfl
  | threw hw => exact hinv.ended (.inr rfl) rfl hw rfl rfl

theorem OtherMove.taskInv (hmove : OtherMove s a s') (hinv : TaskInv policy s h) :
    TaskInv policy s' (h ++ []) := by
  cases hmove with
  | call | timeout | spuriousCaller => exact hinv.same ⟨rfl, fun _ => rfl⟩
  | @spuriousWorker w pc hw =>
    exact hinv.same ⟨rfl, runningOf_same hw (by cases pc <;> rfl)⟩

/-- If steps that meet a condition start no task, a run of them starts none. -/
theorem starts_eq_nil {inv : PoolState σ τ ι → Prop} {P : Act τ ι → Prop} {bs : List (Act τ ι)}
    (hinit : inv s) (hP : ∀ a ∈ bs, P a) (hrun : run (step policy) s bs = some s')
    (hstep : ∀ s a s', inv s → P a → step policy s a = some s' →
      inv s' ∧ starts (events policy s a) = []) :
    inv s' ∧ starts (history (step policy) (events policy) s bs) = [] := by
  have hmeets : Meets (step policy) (fun _ => P) s bs := .of_mem hP
  refine @Meets.history_invariant _ _ _ _ _ s _ (fun s h => inv s ∧ starts h = []) ⟨hinit, rfl⟩ ?_
    _ _ hmeets hrun
  intro s h a s' _ hinv ha hs
  obtain ⟨hnext, hnone⟩ := hstep s a s' hinv.1 ha hs
  exact ⟨hnext, by rw [starts_append, hinv.2, hnone]; rfl⟩

theorem taskInv_run {as : List (Act τ ι)}
    (hrun : run (step policy) (PoolState.init policy) as = some s) :
    TaskInv policy s (poolHistory policy as) := by
  refine history_invariant ⟨rfl, by simp [scheduledOf, starts, droppedOf, PoolState.init,
    policy.tasks_clear], fun w => rfl⟩ ?_ hrun
  intro s h a s' _ hinv hstep
  obtain ⟨i, created, hcaller, -⟩ | ⟨w, created, hworker, -⟩ | ⟨hother, hnone⟩ := step_cases hstep
  · exact hcaller.taskInv hinv
  · exact hworker.taskInv hinv
  · rw [hnone]
    exact hother.taskInv hinv

/-- **Every scheduled task is accounted for.** In every run, for any scheduling
policy: the history of what was scheduled, dropped and started replays on the
scheduler alone and ends in the pool's; the tasks scheduled are those started,
dropped and pending, each as often; and what a worker has started it has ended,
in that order, but for the task it is running. -/
theorem tasks_accounted {as : List (Act τ ι)}
    (hrun : run (step policy) (PoolState.init policy) as = some s) :
    Replays policy policy.clear (poolHistory policy as) s.scheduler ∧
      scheduledOf (poolHistory policy as) = (starts (poolHistory policy as)).map Prod.snd
        + droppedOf (poolHistory policy as) + policy.tasks s.scheduler ∧
      ∀ w, valuesAt w (starts (poolHistory policy as))
        = valuesAt w (ends (poolHistory policy as)) ++ runningOf s.workers w :=
  have hinv := taskInv_run hrun
  ⟨hinv.replays, hinv.accounted, hinv.running⟩

end

/-- The one task of a run is scheduled, started and finished. -/
theorem tasks_accounted_one_worker :
    ∃ s, run (step fifoScheduler) (PoolState.init fifoScheduler) oneWorkerRun = some s ∧
      Replays fifoScheduler [] (poolHistory fifoScheduler oneWorkerRun) s.scheduler ∧
      scheduledOf (poolHistory fifoScheduler oneWorkerRun)
        = (starts (poolHistory fifoScheduler oneWorkerRun)).map Prod.snd
          + droppedOf (poolHistory fifoScheduler oneWorkerRun) + s.scheduler ∧
      ∀ w, valuesAt w (starts (poolHistory fifoScheduler oneWorkerRun))
        = valuesAt w (ends (poolHistory fifoScheduler oneWorkerRun)) ++ runningOf s.workers w := by
  have hrun : (run (step fifoScheduler) (PoolState.init fifoScheduler) oneWorkerRun).map
      (fun s => s.scheduler) = some [] := rfl
  obtain ⟨s, hs, -⟩ := Option.map_eq_some_iff.mp hrun
  exact ⟨s, hs, tasks_accounted hs⟩

end Satf.ThreadPool
