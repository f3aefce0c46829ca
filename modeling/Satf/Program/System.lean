import Satf.Driver.Shutdown
import Satf.Measure.Invariants
import Satf.Pool.History

/-!
# The whole program

`main` runs its loop as the owner of the pool, and what a worker of the pool
runs is a measuring function. A state is that of the pool, and for each worker
where it is in its measuring function; taking a task is where the first hands
over to the second, and a worker of the pool is done with its task only when
the measuring function has returned.

The measuring run of `Satf.Measure` has a pool of its own, which knows only
what is pending and takes from it in any order.

> `refines_measuringRun`: every run of the program is a run of the measuring
> run, one that takes the tasks first come, first served.
>
> `refines_pool`: and a run of the pool.

So what holds of those holds of the program. An exception would leave a worker
where it is; the measuring run never throws (`LogInv`).
-/

namespace Satf.Program

open Satf.Lib Satf.Measure Satf.Driver
open Satf.Pool (PoolCore MainPc WorkerPc MainMove WorkerMove)

/-! ## States and steps -/

/-- The program after `log_init`: the pool with `main` as its owner, and what
its `n` workers do in the measuring functions. -/
structure State (n : Nat) where
  pool : PoolCore LoopState Task n
  phase : Fin n → Phase
  slot : Fin n → Slot
  logMutex : Option (Fin n)
  fs : FileSystem Char
  left : List Record

variable {n : Nat}

/-- `main` has not constructed the pool yet. -/
def State.init (n : Nat) (fs : FileSystem Char) : State n where
  pool := PoolCore.init
  phase _ := .idle
  slot _ := none
  logMutex := none
  fs := fs
  left := []

/-- What the measuring functions see and change: everything but `main` and the
pool. -/
def State.tasks (p : State n) : World n where
  script := []
  data := emptyVectors
  pending := []
  worker := p.phase
  slot := p.slot
  logMutex := p.logMutex
  fs := p.fs
  left := p.left
  returned := false

/-- The state after a step of a measuring function. -/
def State.withTasks (p : State n) (s : World n) : State n :=
  { p with phase := s.worker, slot := s.slot, logMutex := s.logMutex, fs := s.fs, left := s.left }

inductive Act (n : Nat) where
  | pool (a : Pool.Act n)
  | task (w : Fin n) (act : TaskAct)

variable (isMidpoint : UInt32 → UInt32 → Bool) (o : Options) (dice : Nat → Int) (dir : Path)

/-- A step of the pool. A worker that has taken a task enters the measuring
function, and `task()` returns when that does. -/
def poolStep (p : State n) (a : Pool.Act n) : Option (State n) :=
  match a with
  | .worker w =>
    if (p.pool.worker w).tasks ≠ [] ∧ p.phase w ≠ .idle then none
    else (Pool.step (mainClient isMidpoint o dice) p.pool a).map fun pool =>
      { p with
        pool := pool
        phase := match p.pool.taken w with
          | task :: _ => Function.update p.phase w (.fetched task)
          | [] => p.phase }
  | _ => (Pool.step (mainClient isMidpoint o dice) p.pool a).map fun pool => { p with pool := pool }

/-- One step of the program, logging under `dir`. -/
def step (p : State n) : Act n → Option (State n)
  | .pool a => poolStep isMidpoint o dice p a
  | .task w act => (taskStep dir p.tasks w act).map p.withTasks

/-- The measuring run, taking the task that has been pending longest. -/
def fifoStep (s : World n) : Measure.Act n → Option (World n)
  | .fetch _ (_ + 1) => none
  | a => Measure.step dir s a

theorem fifoStep_eq_some {dir : Path} {s s' : World n} {a : Measure.Act n}
    (h : fifoStep dir s a = some s') : Measure.step dir s a = some s' := by
  unfold fifoStep at h
  split at h
  · cases h
  · exact h

/-- A run of it is a measuring run. -/
theorem fifo_reachable {dir : Path} {start s : World n}
    (h : Reachable (fifoStep dir) start s) : Reachable (Measure.step dir) start s := by
  refine @Reachable.invariant _ _ _ (fun s => Reachable (Measure.step dir) start s) _ _ h
    (Reachable.refl _ _) ?_
  intro s a s' hs hstep
  exact hs.step (fifoStep_eq_some hstep)

/-! ## The measuring functions do not see the pool -/

/-- The state with another `main` and another pool. -/
def withMain (s x : World n) : World n :=
  { s with script := x.script, data := x.data, pending := x.pending, returned := x.returned }

/-- A step of a measuring function does not depend on `main` and the pool, and
leaves them alone. -/
theorem taskStep_withMain {dir : Path} {s s' : World n} (x : World n) {w : Fin n} {act : TaskAct}
    (h : taskStep dir s w act = some s') :
    taskStep dir (withMain s x) w act = some (withMain s' x) := by
  have hworker : (withMain s x).worker w = s.worker w := rfl
  have hslot : (withMain s x).slot w = s.slot w := rfl
  have hmutex : (withMain s x).logMutex = s.logMutex := rfl
  have hfs : (withMain s x).fs = s.fs := rfl
  unfold taskStep at h
  split at h
  next t hw => cases h; simp only [taskStep, hworker, hw]; rfl
  next t us hw => cases h; simp only [taskStep, hworker, hw]; rfl
  next hw => cases h; simp only [taskStep, hworker, hw]
  next t start c a b hw =>
    simp only [taskStep, hworker, hw, hslot]
    split at h
    next => cases h; rfl
    next => cases h; rfl
  next t start c us hw => cases h; simp only [taskStep, hworker, hw]; rfl
  next t micros c hw =>
    simp only [taskStep, hworker, hw, hslot]
    split at h
    next => cases h; rfl
    next => cases h; rfl
  next r hw =>
    simp only [taskStep, hworker, hw, hmutex]
    split at h
    next hfree => cases h; rw [if_pos hfree]; rfl
    next => cases h
  next r hw =>
    simp only [taskStep, hworker, hw, hfs]
    split at h
    next => cases h; rfl
    next => cases h; rfl
  next r hw => cases h; simp only [taskStep, hworker, hw]; rfl
  next r done rest k hw =>
    simp only [taskStep, hworker, hw]
    split at h
    next hk => cases h; rw [if_pos hk]; rfl
    next => cases h
  next r done hw => cases h; simp only [taskStep, hworker, hw]; rfl
  next => cases h

theorem taskMove_worker_ne {dir : Path} {s s' : World n} {w v : Fin n}
    (h : TaskMove dir s w s') (hv : v ≠ w) : s'.worker v = s.worker v := by
  cases h with
  | copyLess => rfl
  | construct | startClock | compare | stopClock | count | nullCounter | lock | makeDirFails
  | makeDir | openFile | write | unlock => exact Function.update_of_ne hv ..

/-! ## What `main` has left to do -/

/-- In its loop `main` has these vectors, and these acts to go. -/
def AtLoop (k : LoopState) (script : List MainAct) (data : Vectors) : Prop :=
  data = k.data ∧
    match k.pc with
    | .test i drawn => ∃ fuel, forLoop isMidpoint o dice fuel i drawn = some script
    | .body i drawn acts => ∃ fuel rest,
        forLoop isMidpoint o dice fuel (i + 1) (drawn + 1) = some rest ∧ script = acts ++ rest

/-- The same at any place of `main`; a task it has bound but not pushed is
still to be scheduled. -/
def AtMain : MainPc LoopState Task n → List MainAct → Vectors → Prop
  | .construct, script, data | .resizeStart, script, data | .resizing, script, data =>
    AtLoop isMidpoint o dice (mainClient isMidpoint o dice).start script data
  | .client k, script, data => AtLoop isMidpoint o dice k script data
  | .schedule t k, script, data | .scheduling t k, script, data =>
    ∃ a j rest, t = ⟨a, data j, j⟩ ∧ script = .schedule a j :: rest ∧
      AtLoop isMidpoint o dice k rest data
  | _, script, _ => script = []

theorem atMain_notified (pc : MainPc LoopState Task n) (script : List MainAct) (data : Vectors) :
    AtMain isMidpoint o dice pc.notified script data = AtMain isMidpoint o dice pc script data := by
  cases pc <;> rfl

/-- One step of the loop is one act, or none when it only tests or counts. -/
theorem atLoop_compute {k k' : LoopState} {script : List MainAct} {data : Vectors}
    (h : AtLoop isMidpoint o dice k script data)
    (hnext : (mainClient isMidpoint o dice).next k = .compute k') :
    AtLoop isMidpoint o dice k' script data ∨
      ∃ act rest, script = act :: rest ∧ act.task data = [] ∧
        AtLoop isMidpoint o dice k' rest (act.vectors data) := by
  obtain ⟨pc, vectors⟩ := k
  obtain ⟨rfl, hpc⟩ := h
  cases pc with
  | test i drawn =>
    obtain ⟨fuel, hfuel⟩ := hpc
    simp only [mainClient, loopStep] at hnext
    split at hnext
    next hi =>
      cases hnext
      cases fuel with
      | zero => cases hfuel
      | succ fuel =>
        rw [forLoop, if_pos hi] at hfuel
        obtain ⟨rest, hrest, hscript⟩ := Option.map_eq_some_iff.mp hfuel
        exact .inl ⟨rfl, fuel, rest, hrest, hscript.symm⟩
    next => cases hnext
  | body i drawn acts =>
    obtain ⟨fuel, rest, hrest, rfl⟩ := hpc
    cases acts with
    | nil => cases hnext; exact .inl ⟨rfl, fuel, hrest⟩
    | cons act acts =>
      cases act with
      | schedule a j => cases hnext
      | pushBack j x => cases hnext; exact .inr ⟨_, _, rfl, rfl, rfl, fuel, rest, hrest, rfl⟩
      | sort j => cases hnext; exact .inr ⟨_, _, rfl, rfl, rfl, fuel, rest, hrest, rfl⟩

theorem atLoop_schedule {k k' : LoopState} {t : Task} {script : List MainAct} {data : Vectors}
    (h : AtLoop isMidpoint o dice k script data)
    (hnext : (mainClient isMidpoint o dice).next k = .schedule t k') :
    ∃ a j rest, t = ⟨a, data j, j⟩ ∧ script = .schedule a j :: rest ∧
      AtLoop isMidpoint o dice k' rest data := by
  obtain ⟨pc, vectors⟩ := k
  obtain ⟨rfl, hpc⟩ := h
  cases pc with
  | test i drawn =>
    simp only [mainClient, loopStep] at hnext
    split at hnext <;> cases hnext
  | body i drawn acts =>
    obtain ⟨fuel, rest, hrest, rfl⟩ := hpc
    cases acts with
    | nil => cases hnext
    | cons act acts =>
      cases act with
      | schedule a j => cases hnext; exact ⟨_, _, _, rfl, rfl, rfl, fuel, rest, hrest, rfl⟩
      | pushBack j x => cases hnext
      | sort j => cases hnext

theorem atLoop_finished {k : LoopState} {script : List MainAct} {data : Vectors}
    (h : AtLoop isMidpoint o dice k script data)
    (hnext : (mainClient isMidpoint o dice).next k = .finished) : script = [] := by
  obtain ⟨pc, vectors⟩ := k
  obtain ⟨-, hpc⟩ := h
  cases pc with
  | test i drawn =>
    obtain ⟨fuel, hfuel⟩ := hpc
    simp only [mainClient, loopStep] at hnext
    split at hnext
    next => cases hnext
    next hi =>
      cases fuel with
      | zero => cases hfuel
      | succ fuel =>
        rw [forLoop, if_neg hi] at hfuel
        exact (Option.some.inj hfuel).symm
  | body i drawn acts =>
    cases acts with
    | nil => cases hnext
    | cons act acts => cases act <;> cases hnext

/-! ## The simulation -/

/-- The program, seen as a measuring run. -/
structure Views (p : State n) (x : World n) : Prop where
  tasks : x = withMain p.tasks x
  main : AtMain isMidpoint o dice p.pool.main x.script x.data
  pending : x.pending = p.pool.scheduler
  returned : p.pool.main = .returned → x.returned = true
  idle : ∀ w, (p.pool.worker w).tasks = [] → p.phase w = .idle

variable {isMidpoint o dice dir} {p p' : State n} {x : World n} {w : Fin n}

theorem Views.worker (h : Views isMidpoint o dice p x) : x.worker = p.phase := by
  rw [h.tasks]
  rfl

/-- A step that changes neither what `main` has to do nor what is pending. -/
theorem Views.stay (h : Views isMidpoint o dice p x) {pool : PoolCore LoopState Task n}
    (hmain : AtMain isMidpoint o dice pool.main x.script x.data)
    (hsched : pool.scheduler = p.pool.scheduler) (hret : pool.main ≠ .returned)
    (htasks : ∀ w, (pool.worker w).tasks = (p.pool.worker w).tasks) :
    Views isMidpoint o dice { p with pool := pool } x where
  tasks := h.tasks
  main := hmain
  pending := h.pending.trans hsched.symm
  returned hmain := absurd hmain hret
  idle w hw := h.idle w ((htasks w).symm.trans hw)

/-- A step of a measuring function is one of the measuring run. -/
theorem Views.task (h : Views isMidpoint o dice p x) {s' : World n} {act : TaskAct}
    (hstep : taskStep dir p.tasks w act = some s') :
    fifoStep dir x (.task w act) = some (withMain s' x) ∧
      Views isMidpoint o dice (p.withTasks s') (withMain s' x) := by
  have hmove := taskStep_move hstep
  constructor
  · show taskStep dir x w act = _
    rw [h.tasks]
    exact taskStep_withMain x hstep
  · refine ⟨rfl, h.main, h.pending, h.returned, ?_⟩
    intro v hv
    -- a worker without a task is not the one that moves
    have hidle := h.idle v hv
    have hne : v ≠ w := fun hvw => hmove.tasks.2.2.2.2.2 (hvw ▸ hidle)
    show s'.worker v = .idle
    rw [taskMove_worker_ne hmove hne]
    exact hidle

/-- A step of `main` or the pool in the measuring run. -/
theorem Views.moved (h : Views isMidpoint o dice p x) {pool : PoolCore LoopState Task n}
    {y : World n} (htasks : y = withMain x y)
    (hmain : AtMain isMidpoint o dice pool.main y.script y.data)
    (hpending : y.pending = pool.scheduler) (hret : pool.main = .returned → y.returned = true)
    (hidle : ∀ w, (pool.worker w).tasks = [] → p.phase w = .idle) :
    Views isMidpoint o dice { p with pool := pool } y where
  tasks := by
    have hsame : withMain x y = withMain (withMain p.tasks x) y :=
      congrArg (fun x => withMain x y) h.tasks
    exact htasks.trans hsame
  main := hmain
  pending := hpending
  returned := hret
  idle := hidle

/-- What `main` does with its vectors and the pool is what it does in the
measuring run. -/
theorem Views.mainMove (h : Views isMidpoint o dice p x) (hgrow : Pool.GrowInv p.pool)
    (hdrained : Pool.Drained p.pool) {pool : PoolCore LoopState Task n}
    (hmove : MainMove (mainClient isMidpoint o dice) p.pool pool) :
    ∃ x', Reachable (fifoStep dir) x x' ∧ Views isMidpoint o dice { p with pool := pool } x' := by
  obtain ⟨hsched, htasks⟩ := Pool.mainMove_tasks hgrow hmove
  have hidle : ∀ w, (pool.worker w).tasks = [] → p.phase w = .idle :=
    fun w hw => h.idle w ((htasks w).symm.trans hw)
  -- the steps that push nothing and that the measuring run does not have
  have hstay : p.pool.main.pushed = [] → AtMain isMidpoint o dice pool.main x.script x.data →
      pool.main ≠ .returned →
      ∃ x', Reachable (fifoStep dir) x x' ∧ Views isMidpoint o dice { p with pool := pool } x' := by
    intro hpush hmain hret
    rw [hpush, List.append_nil] at hsched
    exact ⟨x, Reachable.refl _ _, h.stay hmain hsched hret htasks⟩
  -- `m_scheduler.push(task)`
  have hpushed : ∀ t k, p.pool.main = .scheduling t k → pool.main = .client k →
      ∃ x', Reachable (fifoStep dir) x x' ∧ Views isMidpoint o dice { p with pool := pool } x' := by
    intro t k hmain hmain'
    have hat := h.main
    rw [hmain] at hat hsched
    obtain ⟨a, j, rest, rfl, hscript, hloop⟩ := hat
    have hact : fifoStep dir x .main = some { x with
        script := rest, pending := x.pending ++ [⟨a, x.data j, j⟩] } := by
      show Measure.step dir x .main = _
      simp only [Measure.step, hscript]
      rfl
    refine ⟨_, (Reachable.refl _ _).step hact, h.moved rfl ?_ ?_ ?_ hidle⟩
    · rw [hmain']
      exact hloop
    · show x.pending ++ _ = pool.scheduler
      rw [h.pending, hsched]
      rfl
    · intro hret
      rw [hmain'] at hret
      cases hret
  have hat := h.main
  cases hmove with
  | @lock pc hlock =>
    cases hmain : p.pool.main with
    | construct | schedule | wait | terminate =>
      rw [hmain] at hlock hat
      cases hlock
      exact hstay (by rw [hmain]; rfl) hat (by simp)
    | waitBlocked b | terminateBlocked b =>
      rw [hmain] at hlock hat
      cases b with
      | true => cases hlock; exact hstay (by rw [hmain]; rfl) hat (by simp)
      | false => cases hlock
    | _ => rw [hmain] at hlock; cases hlock
  | create hmain =>
    refine hstay (by rw [hmain]; rfl) hat ?_
    show p.pool.main ≠ .returned
    rw [hmain]
    simp
  | compute hmain hnext =>
    rw [hmain] at hat
    rcases atLoop_compute isMidpoint o dice hat hnext with
      hloop | ⟨act, rest, hscript, hnone, hloop⟩
    · exact hstay (by rw [hmain]; rfl) hloop (by simp)
    · -- `main` changes one of its vectors
      have hact : fifoStep dir x .main = some { x with
          script := rest, data := act.vectors x.data, pending := x.pending ++ [] } := by
        show Measure.step dir x .main = _
        simp only [Measure.step, hscript, hnone]
      refine ⟨_, (Reachable.refl _ _).step hact, h.moved rfl hloop ?_ (fun hret => ?_) hidle⟩
      · show x.pending ++ [] = p.pool.scheduler
        rw [List.append_nil, h.pending]
      · cases hret
  | schedule hmain hnext =>
    rw [hmain] at hat
    exact hstay (by rw [hmain]; rfl) (atLoop_schedule isMidpoint o dice hat hnext) (by simp)
  | finish hmain hnext =>
    rw [hmain] at hat
    exact hstay (by rw [hmain]; rfl) (atLoop_finished isMidpoint o dice hat hnext) (by simp)
  | pushNotify hmain | push hmain => exact hpushed _ _ hmain rfl
  | joined hmain =>
    -- `main` leaves the pool's destructor: nothing is pending and everybody idle
    obtain ⟨hempty, hnone⟩ := hdrained (by rw [hmain]; rfl)
    rw [hmain] at hat
    have hret : fifoStep dir x .ret = some { x with returned := true } := by
      show Measure.step dir x .ret = _
      refine if_pos ⟨hat, h.pending.trans hempty, fun w => ?_⟩
      rw [h.worker]
      exact h.idle w (hnone w)
    exact ⟨_, (Reachable.refl _ _).step hret, h.moved rfl hat h.pending (fun _ => rfl) hidle⟩
  | resizeRefused hmain | resizeUp hmain | resizeDown hmain | created hmain | waitBlock hmain
  | waited hmain | terminateAll hmain | terminateBlock hmain | startJoin hmain | join hmain =>
    rw [hmain] at hat
    exact hstay (by rw [hmain]; rfl) hat (by simp)

theorem notified_eq_returned {pc : MainPc LoopState Task n} (h : pc.notified = .returned) :
    pc = .returned := by
  cases pc with
  | waitBlocked | terminateBlocked => cases h
  | _ => exact h

/-- What a worker of the pool does: it takes the first pending task, or
nothing that the measuring run sees. -/
theorem Views.workerStep (h : Views isMidpoint o dice p x) {pool : PoolCore LoopState Task n}
    (hfree : (p.pool.worker w).tasks = [] ∨ p.phase w = .idle)
    (hstep : Pool.workerStep p.pool w = some pool) :
    ∃ x', Reachable (fifoStep dir) x x' ∧
      Views isMidpoint o dice
        { p with
          pool := pool
          phase := match p.pool.taken w with
            | task :: _ => Function.update p.phase w (.fetched task)
            | [] => p.phase } x' := by
  obtain ⟨htake, hself, hother⟩ := Pool.workerStep_tasks hstep
  -- `main` is where it was, but for a notification
  have hmain : AtMain isMidpoint o dice pool.main x.script x.data ∧
      (pool.main = .returned → x.returned = true) := by
    have hmain : pool.main = p.pool.main ∨ pool.main = p.pool.main.notified := by
      cases Pool.workerStep_move hstep with
      | sleep | destructed => exact .inr rfl
      | lock | wake | leave | stay | take | done | exit => exact .inl rfl
    rcases hmain with hsame | hnotified
    · rw [hsame]
      exact ⟨h.main, h.returned⟩
    · rw [hnotified, atMain_notified]
      exact ⟨h.main, fun hret => h.returned (notified_eq_returned hret)⟩
  have hwidle : p.phase w = .idle := by
    rcases hfree with hnone | hidle
    · exact h.idle w hnone
    · exact hidle
  cases htaken : p.pool.taken w with
  | nil =>
    rw [htaken] at htake
    refine ⟨x, Reachable.refl _ _, ?_⟩
    show Views isMidpoint o dice { p with pool := pool } x
    refine ⟨h.tasks, hmain.1, h.pending.trans htake, hmain.2, ?_⟩
    intro v hv
    by_cases hvw : v = w
    · rw [hvw]
      exact hwidle
    · rw [hother v hvw] at hv
      exact h.idle v hv
  | cons task more =>
    rw [htaken] at htake hself
    -- a worker takes one task
    have hmore : more = [] := by
      have hlen : (p.pool.taken w).length ≤ 1 := by
        unfold PoolCore.taken
        split
        · simp
        · simp
      rw [htaken, List.length_cons] at hlen
      exact List.eq_nil_of_length_eq_zero (by omega)
    subst hmore
    have hpending : x.pending = task :: pool.scheduler := h.pending.trans htake
    have hfetch : fifoStep dir x (.fetch w 0) = some { x.at w (.fetched task) with
        pending := pool.scheduler } := by
      show Measure.step dir x (.fetch w 0) = _
      simp only [Measure.step, h.worker, hwidle, hpending, List.getElem?_cons_zero,
        List.eraseIdx_cons_zero]
    have hsame := congrArg (fun y : World n => ({ y.at w (.fetched task) with
        script := x.script, data := x.data, pending := pool.scheduler,
        returned := x.returned } : World n)) h.tasks
    refine ⟨_, (Reachable.refl _ _).step hfetch, hsame, hmain.1, rfl, hmain.2, ?_⟩
    · intro v hv
      by_cases hvw : v = w
      · rw [hvw, hself] at hv
        cases hv
      · show Function.update p.phase w (.fetched task) v = .idle
        rw [Function.update_of_ne hvw]
        rw [hother v hvw] at hv
        exact h.idle v hv

/-- Every step of the program is at most one of the measuring run. -/
theorem Views.step (h : Views isMidpoint o dice p x) (hpool : Pool.PoolInv p.pool)
    (hdrained : Pool.Drained p.pool) {a : Act n}
    (hstep : step isMidpoint o dice dir p a = some p') :
    ∃ x', Reachable (fifoStep dir) x x' ∧ Views isMidpoint o dice p' x' := by
  cases a with
  | task w act =>
    obtain ⟨s', hs', rfl⟩ := Option.map_eq_some_iff.mp hstep
    obtain ⟨hx, hviews⟩ := h.task hs'
    exact ⟨_, (Reachable.refl _ _).step hx, hviews⟩
  | pool a =>
    cases a with
    | main chosen =>
      obtain ⟨pool, hpool', rfl⟩ := Option.map_eq_some_iff.mp hstep
      exact h.mainMove hpool.grow hdrained (Pool.mainStep_move hpool')
    | worker w =>
      simp only [Program.step, poolStep] at hstep
      split at hstep
      next => cases hstep
      next hfree =>
        obtain ⟨pool, hpool', rfl⟩ := Option.map_eq_some_iff.mp hstep
        refine h.workerStep ?_ hpool'
        rwa [not_and_or, not_not, not_not] at hfree
    | spuriousMain =>
      simp only [Program.step, poolStep, Pool.step, Option.map_some, Option.some.injEq] at hstep
      subst hstep
      refine ⟨x, Reachable.refl _ _, h.tasks, ?_, h.pending, ?_, h.idle⟩
      · show AtMain isMidpoint o dice p.pool.main.notified x.script x.data
        rw [atMain_notified]
        exact h.main
      · exact fun hret => h.returned (notified_eq_returned hret)
    | spuriousWorker w =>
      simp only [Program.step, poolStep, Pool.step, Option.map_some, Option.some.injEq] at hstep
      subst hstep
      refine ⟨x, Reachable.refl _ _, h.tasks, h.main, h.pending, h.returned, fun v hv => ?_⟩
      refine h.idle v (Eq.trans ?_ hv)
      exact (Pool.atWorker_test WorkerPc.tasks (WorkerPc.notified_tasks _) v).symm

/-! ## The results -/

/-- The pool of the program takes the steps of the pool, and no others. -/
theorem step_pool {a : Act n} (h : step isMidpoint o dice dir p a = some p') :
    p'.pool = p.pool ∨
      ∃ b, Pool.step (mainClient isMidpoint o dice) p.pool b = some p'.pool := by
  cases a with
  | task w act =>
    obtain ⟨s', -, rfl⟩ := Option.map_eq_some_iff.mp h
    exact .inl rfl
  | pool b =>
    right
    refine ⟨b, ?_⟩
    simp only [step, poolStep] at h
    split at h
    next =>
      split at h
      next => cases h
      next =>
        obtain ⟨pool, hpool, rfl⟩ := Option.map_eq_some_iff.mp h
        exact hpool
    next =>
      obtain ⟨pool, hpool, rfl⟩ := Option.map_eq_some_iff.mp h
      exact hpool

/-- **The program refines the pool.** What its workers do in the measuring
functions does not concern the pool: the pool's part of every state of every
run is one that the pool reaches by itself. -/
theorem refines_pool {fs : FileSystem Char}
    (h : Reachable (step isMidpoint o dice dir) (State.init n fs) p) :
    Reachable (Pool.step (mainClient isMidpoint o dice)) PoolCore.init p.pool := by
  refine @Reachable.invariant _ _ _
    (fun p => Reachable (Pool.step (mainClient isMidpoint o dice)) PoolCore.init p.pool) _ _ h
    (Reachable.refl _ _) ?_
  intro p a p' hreach hstep
  rcases step_pool hstep with hsame | ⟨b, hb⟩
  · rw [hsame]
    exact hreach
  · exact hreach.step hb

/-- At the start, all of the script is still to be done. -/
theorem Views.init {fs : FileSystem Char} {fuel : Nat} {script : List MainAct}
    (hscript : forLoop isMidpoint o dice fuel 1 0 = some script) :
    Views isMidpoint o dice (State.init n fs) (World.init n script fs) where
  tasks := rfl
  main := ⟨rfl, fuel, hscript⟩
  pending := rfl
  returned h := by cases h
  idle _ _ := rfl

theorem reachable_views {fs : FileSystem Char} {fuel : Nat} {script : List MainAct}
    (hscript : forLoop isMidpoint o dice fuel 1 0 = some script)
    (h : Reachable (step isMidpoint o dice dir) (State.init n fs) p) :
    ∃ x : World n, Reachable (fifoStep dir) (World.init n script fs) x ∧
      Views isMidpoint o dice p x := by
  refine simulation (Views.init hscript) ?_ h
  intro p a p' x hreach _ hviews hstep
  have hpool := refines_pool hreach
  exact hviews.step (Pool.reachable_poolInv hpool) (Pool.reachable_drained hpool) hstep

/-- **The program refines the measuring run.** For bounds at which the loop
ends, every state of every run of the program is a state of the measuring run
of that loop's script, taking the longest pending task first: the same phases,
counters and files, with the tasks pending that are pending in the pool, and
returned once `main` has returned. -/
theorem refines_measuringRun {fs : FileSystem Char} {fuel : Nat} {script : List MainAct}
    (hscript : forLoop isMidpoint o dice fuel 1 0 = some script)
    (h : Reachable (step isMidpoint o dice dir) (State.init n fs) p) :
    ∃ x : World n, Reachable (fifoStep dir) (World.init n script fs) x ∧
      x = withMain p.tasks x ∧ x.pending = p.pool.scheduler ∧
      (p.pool.main = .returned → x.returned = true) := by
  obtain ⟨x, hx, hviews⟩ := reachable_views hscript h
  exact ⟨x, hx, hviews.tasks, hviews.pending, hviews.returned⟩

/-! ## A whole run -/

/-- `--min=1 --max=1 --threads=1`. -/
def oneSize : Options := ⟨1, 1, 1, UInt32.le_refl _⟩

/-- The only worker takes a task, sorts one element without a comparison, logs
`1 0 0` and is done. -/
def oneTaskRun (w : Fin 1) : List (Act 1) :=
  List.replicate 3 (.pool (.worker w))
    ++ [.task w .construct, .task w (.startClock 0), .task w (.stopClock 0), .task w .count,
      .task w .lock, .task w .makeDir, .task w .openFile, .task w (.write 6), .task w .unlock]
    ++ [.pool (.worker w)]

/-- `main` schedules its twelve tasks, the worker executes them and goes to
sleep, and `main` returns. -/
def oneSizeRun : List (Act 1) :=
  List.replicate 47 (.pool (.main none)) ++ (List.replicate 12 (oneTaskRun (Fin.last 0))).flatten
    ++ List.replicate 3 (.pool (.worker (Fin.last 0))) ++ List.replicate 6 (.pool (.main none))

set_option maxRecDepth 10000 in
theorem oneSizeRun_returns :
    ∃ p, run (step (fun _ _ => false) oneSize (fun _ => 1) []) (State.init 1 FileSystem.empty)
        oneSizeRun = some p ∧ p.pool.main = .returned := by
  have hrun : (run (step (fun _ _ => false) oneSize (fun _ => 1) [])
      (State.init 1 FileSystem.empty) oneSizeRun).map (fun p => p.pool.main)
        = some .returned := rfl
  exact Option.map_eq_some_iff.mp hrun

/-- The theorem at the end of that run. -/
theorem refines_measuringRun_one_size :
    ∃ p, run (step (fun _ _ => false) oneSize (fun _ => 1) []) (State.init 1 FileSystem.empty)
        oneSizeRun = some p ∧
      ∃ x : World 1, Reachable (fifoStep [])
          (World.init 1 (iteration (fun _ _ => false) oneSize 1 1) FileSystem.empty) x ∧
        x = withMain p.tasks x ∧ x.pending = p.pool.scheduler ∧ x.returned = true := by
  obtain ⟨p, hp, hret⟩ := oneSizeRun_returns
  have hscript : forLoop (fun _ _ => false) oneSize (fun _ => 1) 2 1 0
      = some (iteration (fun _ _ => false) oneSize 1 1) := rfl
  obtain ⟨x, hx, htasks, hpending, hreturned⟩ := refines_measuringRun hscript ⟨_, hp⟩
  exact ⟨p, hp, x, hx, htasks, hpending, hreturned hret⟩

end Satf.Program
