import Satf.Lib.Count
import Satf.Pool.Core

/-!
# What holds in every state of the pool

Five invariants, each kept by every step.

* `LockInv`: the monitor is held by the one thread that is inside a critical
  section.
* `CountInv`: `m_worker_count` and `m_active_worker_count` are the numbers of
  workers that exist and that do not wait.
* `GrowInv`: while `resize` runs, the workers created so far have not taken a
  step; afterwards every worker has been created.
* `TermInv`: no worker leaves before `m_terminate_all_workers` is set, and the
  threads to join are on their way out.
* `WakeInv`: no notification is lost. A waiting owner has something to wait
  for, and pending tasks have a worker that does not sleep.
-/

namespace Satf.Pool

open Satf.Lib

variable {κ τ : Type} {n : Nat} {client : Client κ τ} {s s' : PoolCore κ τ n} {w : Fin n}

/-! ## Tests on places -/

/-- Inside a critical section. -/
def MainPc.holds : MainPc κ τ n → Bool
  | .resizeStart | .resizing | .scheduling _ _ | .waitTest | .terminating | .terminateTest
  | .joining _ => true
  | _ => false

/-- Inside a critical section. -/
def WorkerPc.holds : WorkerPc τ → Bool
  | .firstTest | .loopTest | .destructing => true
  | _ => false

/-- Counted in `m_active_worker_count`. -/
def WorkerPc.active : WorkerPc τ → Bool
  | .absent | .blocked _ | .exiting | .finished => false
  | _ => true

/-- Counted in `m_worker_count`. -/
def WorkerPc.counted : WorkerPc τ → Bool
  | .absent | .exiting | .finished => false
  | _ => true

/-- The pool is still being constructed. -/
def MainPc.creating : MainPc κ τ n → Bool
  | .construct | .resizeStart | .resizing => true
  | _ => false

/-- After `m_terminate_all_workers` has been set. -/
def MainPc.terminates : MainPc κ τ n → Bool
  | .terminateTest | .terminateBlocked _ | .joining _ | .returned => true
  | _ => false

/-- On the way out of the thread. -/
def WorkerPc.leaving : WorkerPc τ → Bool
  | .destruct | .destructing | .exiting | .finished => true
  | _ => false

/-- Past `worker_destructed`. -/
def WorkerPc.gone : WorkerPc τ → Bool
  | .exiting | .finished => true
  | _ => false

/-! A notification changes none of these. -/

@[simp] theorem MainPc.notified_holds (pc : MainPc κ τ n) : pc.notified.holds = pc.holds := by
  cases pc <;> rfl

@[simp] theorem MainPc.notified_creating (pc : MainPc κ τ n) :
    pc.notified.creating = pc.creating := by
  cases pc <;> rfl

@[simp] theorem MainPc.notified_terminates (pc : MainPc κ τ n) :
    pc.notified.terminates = pc.terminates := by
  cases pc <;> rfl

@[simp] theorem WorkerPc.notified_holds (pc : WorkerPc τ) : pc.notified.holds = pc.holds := by
  cases pc <;> rfl

@[simp] theorem WorkerPc.notified_active (pc : WorkerPc τ) : pc.notified.active = pc.active := by
  cases pc <;> rfl

@[simp] theorem WorkerPc.notified_counted (pc : WorkerPc τ) :
    pc.notified.counted = pc.counted := by
  cases pc <;> rfl

@[simp] theorem WorkerPc.notified_leaving (pc : WorkerPc τ) :
    pc.notified.leaving = pc.leaving := by
  cases pc <;> rfl

@[simp] theorem WorkerPc.notified_gone (pc : WorkerPc τ) : pc.notified.gone = pc.gone := by
  cases pc <;> rfl

@[simp] theorem WorkerPc.notified_asleep (pc : WorkerPc τ) : pc.notified.asleep = false := by
  cases pc <;> rfl

theorem MainPc.afterLock_holds {pc pc' : MainPc κ τ n} (h : pc.afterLock = some pc') :
    pc'.holds = true := by
  unfold MainPc.afterLock at h
  split at h <;> cases h <;> rfl

theorem WorkerPc.afterLock_eq {pc pc' : WorkerPc τ} (h : pc.afterLock = some pc') :
    (pc = .fetch ∧ pc' = .firstTest) ∨ (pc = .destruct ∧ pc' = .destructing) := by
  unfold WorkerPc.afterLock at h
  split at h
  next => exact .inl ⟨rfl, (Option.some.inj h).symm⟩
  next => exact .inr ⟨rfl, (Option.some.inj h).symm⟩
  next => exact absurd h (by simp)

@[simp] theorem atWorker_worker_self (s : PoolCore κ τ n) (w : Fin n) (pc : WorkerPc τ) :
    (s.atWorker w pc).worker w = pc := Function.update_self ..

theorem atWorker_worker_ne (s : PoolCore κ τ n) {w v : Fin n} (pc : WorkerPc τ) (h : v ≠ w) :
    (s.atWorker w pc).worker v = s.worker v := Function.update_of_ne h ..

/-! ## The monitor -/

/-- The monitor is held by whoever is in a critical section. -/
structure LockInv (s : PoolCore κ τ n) : Prop where
  main : s.monitor = some .main ↔ s.main.holds = true
  worker : ∀ w, s.monitor = some (.worker w) ↔ (s.worker w).holds = true

/-- The owner takes the monitor. -/
theorem LockInv.mainTakes (h : LockInv s) (hfree : s.monitor = none)
    (hmon : s'.monitor = some .main) (hmain : s'.main.holds = true)
    (hw : ∀ w, (s'.worker w).holds = (s.worker w).holds) : LockInv s' where
  main := by simp [hmon, hmain]
  worker w := by simp [hmon, hw w, ← h.worker w, hfree]

/-- The owner gives the monitor back. -/
theorem LockInv.mainGives (h : LockInv s) (hold : s.main.holds = true)
    (hmon : s'.monitor = none) (hmain : s'.main.holds = false)
    (hw : ∀ w, (s'.worker w).holds = (s.worker w).holds) : LockInv s' where
  main := by simp [hmon, hmain]
  worker w := by simp [hmon, hw w, ← h.worker w, h.main.mpr hold]

/-- Nobody takes the monitor or gives it back. -/
theorem LockInv.kept (h : LockInv s) (hmon : s'.monitor = s.monitor)
    (hmain : s'.main.holds = s.main.holds)
    (hw : ∀ w, (s'.worker w).holds = (s.worker w).holds) : LockInv s' where
  main := by rw [hmon, hmain, h.main]
  worker w := by rw [hmon, hw w, h.worker w]

/-- Worker `w` takes the monitor. -/
theorem LockInv.workerTakes (h : LockInv s) (hfree : s.monitor = none)
    (hmon : s'.monitor = some (.worker w)) (hmain : s'.main.holds = s.main.holds)
    (hw : (s'.worker w).holds = true) (hother : ∀ v, v ≠ w → s'.worker v = s.worker v) :
    LockInv s' where
  main := by simp [hmon, hmain, ← h.main, hfree]
  worker v := by
    by_cases hv : v = w
    · subst hv
      simp [hmon, hw]
    · simp [hmon, hother v hv, ← h.worker v, hfree, Ne.symm hv]

/-- Worker `w` gives the monitor back. -/
theorem LockInv.workerGives (h : LockInv s) (hold : (s.worker w).holds = true)
    (hmon : s'.monitor = none) (hmain : s'.main.holds = s.main.holds)
    (hw : (s'.worker w).holds = false) (hother : ∀ v, v ≠ w → s'.worker v = s.worker v) :
    LockInv s' where
  main := by simp [hmon, hmain, ← h.main, (h.worker w).mpr hold]
  worker v := by
    by_cases hv : v = w
    · subst hv
      simp [hmon, hw]
    · simp [hmon, hother v hv, ← h.worker v, (h.worker w).mpr hold, Ne.symm hv]

/-- Whatever worker `w` changes to, seen through a test. -/
theorem atWorker_test {β : Type} (test : WorkerPc τ → β) {pc : WorkerPc τ}
    (h : test pc = test (s.worker w)) (v : Fin n) :
    test ((s.atWorker w pc).worker v) = test (s.worker v) := by
  by_cases hv : v = w
  · subst hv
    rw [atWorker_worker_self, h]
  · rw [atWorker_worker_ne s pc hv]

theorem asleep_eq {pc : WorkerPc τ} (h : pc.asleep = true) : pc = .blocked false := by
  unfold WorkerPc.asleep at h
  split at h
  · rfl
  · cases h

theorem mainMove_lockInv (hinv : LockInv s) (h : MainMove client s s') : LockInv s' := by
  cases h with
  | lock hlock hfree =>
    exact hinv.mainTakes hfree rfl (MainPc.afterLock_holds hlock) fun _ => rfl
  | resizeRefused hmain | created hmain | push hmain | waitBlock hmain | waited hmain
  | terminateBlock hmain | joined hmain =>
    exact hinv.mainGives (by rw [hmain]; rfl) rfl rfl fun _ => rfl
  | resizeDown hmain =>
    exact hinv.mainGives (by rw [hmain]; rfl) rfl rfl fun _ => WorkerPc.notified_holds _
  | pushNotify hmain hasleep =>
    exact hinv.mainGives (by rw [hmain]; rfl) rfl rfl
      (atWorker_test WorkerPc.holds (by rw [asleep_eq hasleep]; rfl))
  | resizeUp hmain | compute hmain | schedule hmain | finish hmain | startJoin hmain | join hmain =>
    exact hinv.kept rfl (by rw [hmain]; rfl) fun _ => rfl
  | terminateAll hmain =>
    exact hinv.kept rfl (by rw [hmain]; rfl) fun _ => WorkerPc.notified_holds _
  | create hmain hmore hlt =>
    -- a new worker starts outside; the monitor is the owner's, so the old one was outside too
    have hout : (s.worker ⟨s.workerCount, hlt⟩).holds = false := by
      have hmon := hinv.main.mpr (by rw [hmain]; rfl)
      by_contra hin
      rw [Bool.not_eq_false] at hin
      rw [(hinv.worker _).mpr hin] at hmon
      exact absurd hmon (by simp)
    exact hinv.kept rfl rfl (atWorker_test WorkerPc.holds (by rw [hout]; rfl))

theorem workerMove_lockInv (hinv : LockInv s) (h : WorkerMove s w s') : LockInv s' := by
  have hother : ∀ pc v, v ≠ w → (s.atWorker w pc).worker v = s.worker v :=
    fun pc v hv => atWorker_worker_ne s pc hv
  cases h with
  | lock hlock hfree =>
    refine hinv.workerTakes hfree rfl rfl ?_ (hother _)
    rcases WorkerPc.afterLock_eq hlock with ⟨-, rfl⟩ | ⟨-, rfl⟩
    · simp [WorkerPc.holds]
    · simp [WorkerPc.holds]
  | wake hw hfree => exact hinv.workerTakes hfree rfl rfl (by simp [WorkerPc.holds]) (hother _)
  | leave hw =>
    refine hinv.workerGives ?_ rfl rfl (by simp [WorkerPc.holds]) (hother _)
    rcases hw with hw | hw
    · rw [hw]; rfl
    · rw [hw]; rfl
  | stay hw => exact hinv.kept rfl rfl (atWorker_test WorkerPc.holds (by rw [hw]; rfl))
  | sleep hw =>
    exact hinv.workerGives (by rw [hw]; rfl) rfl (MainPc.notified_holds _)
      (by simp [WorkerPc.holds]) (hother _)
  | take hw =>
    exact hinv.workerGives (by rw [hw]; rfl) rfl rfl (by simp [WorkerPc.holds]) (hother _)
  | done hw => exact hinv.kept rfl rfl (atWorker_test WorkerPc.holds (by rw [hw]; rfl))
  | destructed hw =>
    exact hinv.workerGives (by rw [hw]; rfl) rfl (MainPc.notified_holds _)
      (by simp [WorkerPc.holds]) (hother _)
  | exit hw => exact hinv.kept rfl rfl (atWorker_test WorkerPc.holds (by rw [hw]; rfl))

theorem step_lockInv (hinv : LockInv s) {a : Act n} (h : step client s a = some s') :
    LockInv s' := by
  rcases step_cases h with h | ⟨w, h⟩ | rfl | ⟨w, rfl⟩
  · exact mainMove_lockInv hinv h
  · exact workerMove_lockInv hinv h
  · exact hinv.kept rfl (MainPc.notified_holds _) fun _ => rfl
  · exact hinv.kept rfl rfl (atWorker_test WorkerPc.holds (WorkerPc.notified_holds _))

/-! ## Creating the workers -/

/-- What `resize` has done so far. -/
structure GrowInv (s : PoolCore κ τ n) : Prop where
  fresh : s.main.creating = true → s.terminateAllWorkers = false ∧ s.workerCount ≤ n ∧
    s.scheduler = [] ∧ ∀ v : Fin n, s.worker v = if v.val < s.workerCount then .fetch else .absent
  start : s.main = .construct → s.workerCount = 0
  target : s.main = .resizing → s.targetWorkerCount = n
  complete : s.main.creating = false → ∀ v, s.worker v ≠ .absent

theorem WorkerPc.notified_ne_absent {pc : WorkerPc τ} (h : pc ≠ .absent) :
    pc.notified ≠ .absent := by
  cases pc with
  | absent => exact absurd rfl h
  | _ => simp [WorkerPc.notified]

theorem MainPc.notified_creator {pc : MainPc κ τ n} (h : pc.creating = true) :
    pc.notified = pc := by
  cases pc with
  | waitBlocked | terminateBlocked => exact absurd h (by simp [MainPc.creating])
  | _ => rfl

/-- Outside construction only the last field says something. -/
theorem GrowInv.of_created (hmain : s'.main.creating = false)
    (h : ∀ v, s'.worker v ≠ .absent) : GrowInv s' where
  fresh hc := absurd hc (by rw [hmain]; decide)
  start hc := by rw [hc] at hmain; cases hmain
  target hc := by rw [hc] at hmain; cases hmain
  complete _ := h

/-- While the pool is constructed, no worker moves. -/
theorem GrowInv.no_workerMove (hinv : GrowInv s) (hlock : LockInv s)
    (hmain : s.main.creating = true) (h : WorkerMove s w s') : False := by
  obtain ⟨-, -, -, hworkers⟩ := hinv.fresh hmain
  have hw := hworkers w
  by_cases hlt : w.val < s.workerCount
  · rw [if_pos hlt] at hw
    -- the worker waits for the monitor, which `resize` holds
    have hholds : s.main.holds = true := by
      cases hpc : s.main with
      | construct => rw [hinv.start hpc] at hlt; omega
      | resizeStart | resizing => rfl
      | _ => rw [hpc] at hmain; exact absurd hmain (by simp [MainPc.creating])
    cases h with
    | lock _ hfree => rw [hlock.main.mpr hholds] at hfree; cases hfree
    | leave hw' => rcases hw' with h | h <;> rw [hw] at h <;> cases h
    | wake h | stay h | sleep h | take h | done h | destructed h | exit h => rw [hw] at h; cases h
  · rw [if_neg hlt] at hw
    cases h with
    | lock h => rw [hw] at h; cases h
    | leave hw' => rcases hw' with h | h <;> rw [hw] at h <;> cases h
    | wake h | stay h | sleep h | take h | done h | destructed h | exit h => rw [hw] at h; cases h

/-- A worker's step does not undo its creation. -/
theorem workerMove_ne_absent (hall : ∀ v, s.worker v ≠ .absent) (h : WorkerMove s w s') :
    ∀ v, s'.worker v ≠ .absent := by
  have hset : ∀ pc, pc ≠ .absent → ∀ v, (s.atWorker w pc).worker v ≠ .absent := by
    intro pc hpc v
    by_cases hv : v = w
    · rw [hv, atWorker_worker_self]
      exact hpc
    · rw [atWorker_worker_ne s pc hv]
      exact hall v
  cases h with
  | lock hlock =>
    rcases WorkerPc.afterLock_eq hlock with ⟨-, rfl⟩ | ⟨-, rfl⟩
    · exact hset _ (by simp)
    · exact hset _ (by simp)
  | wake | leave | stay | sleep | take | done | destructed | exit => exact hset _ (by simp)

theorem workerMove_creating (h : WorkerMove s w s') : s'.main.creating = s.main.creating := by
  cases h with
  | sleep | destructed => exact MainPc.notified_creating _
  | lock | wake | leave | stay | take | done | exit => rfl

theorem mainMove_growInv (hinv : GrowInv s) (h : MainMove client s s') : GrowInv s' := by
  cases h with
  | @lock pc hlock hfree =>
    cases hmain : s.main with
    | construct =>
      rw [hmain] at hlock
      cases hlock
      exact ⟨fun _ => hinv.fresh (by rw [hmain]; rfl), by simp, by simp, by simp [MainPc.creating]⟩
    | schedule task k | wait | terminate =>
      rw [hmain] at hlock
      cases hlock
      exact .of_created rfl (hinv.complete (by rw [hmain]; rfl))
    | waitBlocked b | terminateBlocked b =>
      rw [hmain] at hlock
      cases b with
      | true => cases hlock; exact .of_created rfl (hinv.complete (by rw [hmain]; rfl))
      | false => cases hlock
    | _ => rw [hmain] at hlock; cases hlock
  | resizeRefused hmain hflag =>
    rw [(hinv.fresh (by rw [hmain]; rfl)).1] at hflag
    cases hflag
  | resizeUp hmain hflag hle =>
    exact ⟨fun _ => hinv.fresh (by rw [hmain]; rfl), by simp, fun _ => rfl,
      by simp [MainPc.creating]⟩
  | resizeDown hmain hflag hgt =>
    have hle := (hinv.fresh (by rw [hmain]; rfl)).2.1
    omega
  | create hmain hmore hlt =>
    obtain ⟨hflag, hle, hsched, hworkers⟩ := hinv.fresh (by rw [hmain]; rfl)
    refine ⟨fun _ => ⟨hflag, hlt, hsched, ?_⟩, ?_, fun _ => hinv.target hmain, ?_⟩
    · intro v
      show (s.atWorker ⟨s.workerCount, hlt⟩ .fetch).worker v = if v.val < s.workerCount + 1 then _ else _
      by_cases hv : v = ⟨s.workerCount, hlt⟩
      · rw [hv, atWorker_worker_self, if_pos (Nat.lt_succ_self _)]
      · have hne : v.val ≠ s.workerCount := fun h => hv (Fin.ext h)
        rw [atWorker_worker_ne s _ hv, hworkers v]
        by_cases hlt' : v.val < s.workerCount
        · rw [if_pos hlt', if_pos (by omega)]
        · rw [if_neg hlt', if_neg (by omega)]
    · intro h
      rw [show s.main = .construct from h] at hmain
      cases hmain
    · intro h
      have hc : s.main.creating = false := h
      rw [hmain] at hc
      cases hc
  | created hmain hall =>
    obtain ⟨-, -, -, hworkers⟩ := hinv.fresh (by rw [hmain]; rfl)
    refine .of_created rfl fun v => ?_
    rw [hinv.target hmain] at hall
    show s.worker v ≠ .absent
    rw [hworkers v, if_pos (by omega)]
    simp
  | compute hmain | schedule hmain | finish hmain | push hmain | waitBlock hmain | waited hmain
  | terminateBlock hmain | startJoin hmain | join hmain | joined hmain =>
    exact .of_created rfl (hinv.complete (by rw [hmain]; rfl))
  | @pushNotify task k w hmain hasleep =>
    refine .of_created rfl fun v => ?_
    show (s.atWorker w (.blocked true)).worker v ≠ .absent
    by_cases hv : v = w
    · rw [hv, atWorker_worker_self]
      simp
    · rw [atWorker_worker_ne s _ hv]
      exact hinv.complete (by rw [hmain]; rfl) v
  | terminateAll hmain =>
    exact .of_created rfl fun v =>
      WorkerPc.notified_ne_absent (hinv.complete (by rw [hmain]; rfl) v)

theorem step_growInv (hinv : GrowInv s) (hlock : LockInv s) {a : Act n}
    (h : step client s a = some s') : GrowInv s' := by
  rcases step_cases h with h | ⟨w, h⟩ | rfl | ⟨w, rfl⟩
  · exact mainMove_growInv hinv h
  · cases hmain : s.main.creating with
    | true => exact absurd (hinv.no_workerMove hlock hmain h) id
    | false =>
      exact .of_created ((workerMove_creating h).trans hmain)
        (workerMove_ne_absent (hinv.complete hmain) h)
  · cases hmain : s.main.creating with
    | true =>
      have heq : { s with main := s.main.notified } = s := by rw [MainPc.notified_creator hmain]
      rw [heq]
      exact hinv
    | false =>
      exact .of_created ((MainPc.notified_creating _).trans hmain) (hinv.complete hmain)
  · cases hmain : s.main.creating with
    | true =>
      obtain ⟨hflag, hle, hsched, hworkers⟩ := hinv.fresh hmain
      have heq : s.atWorker w (s.worker w).notified = s := by
        have hsame : (s.worker w).notified = s.worker w := by
          rw [hworkers w]
          split <;> rfl
        rw [hsame, PoolCore.atWorker, Function.update_eq_self]
      rw [heq]
      exact hinv
    | false =>
      refine .of_created hmain fun v => ?_
      by_cases hv : v = w
      · rw [hv, atWorker_worker_self]
        exact WorkerPc.notified_ne_absent (hinv.complete hmain w)
      · rw [atWorker_worker_ne s _ hv]
        exact hinv.complete hmain v

/-! ## The counters -/

/-- The counters count what they are named after. -/
structure CountInv (s : PoolCore κ τ n) : Prop where
  active : s.activeWorkerCount = countWhere WorkerPc.active s.worker
  counted : s.workerCount = countWhere WorkerPc.counted s.worker

theorem countWhere_atWorker (test : WorkerPc τ → Bool) (s : PoolCore κ τ n) (w : Fin n)
    (pc : WorkerPc τ) :
    countWhere test (s.atWorker w pc).worker + (test (s.worker w)).toNat
      = countWhere test s.worker + (test pc).toNat :=
  countWhere_update test s.worker w pc

/-- Nobody starts or stops counting. -/
theorem CountInv.kept (h : CountInv s) (hactive : s'.activeWorkerCount = s.activeWorkerCount)
    (hcounted : s'.workerCount = s.workerCount)
    (hw : ∀ v, (s'.worker v).active = (s.worker v).active ∧
      (s'.worker v).counted = (s.worker v).counted) : CountInv s' where
  active := by rw [hactive, h.active, countWhere_congr fun v => (hw v).1]
  counted := by rw [hcounted, h.counted, countWhere_congr fun v => (hw v).2]

/-- A worker that counts before as much as after. -/
theorem atWorker_counts {pc : WorkerPc τ} (hactive : pc.active = (s.worker w).active)
    (hcounted : pc.counted = (s.worker w).counted) (v : Fin n) :
    ((s.atWorker w pc).worker v).active = (s.worker v).active ∧
      ((s.atWorker w pc).worker v).counted = (s.worker v).counted :=
  ⟨atWorker_test WorkerPc.active hactive v, atWorker_test WorkerPc.counted hcounted v⟩

theorem mainMove_countInv (hinv : CountInv s) (hgrow : GrowInv s) (h : MainMove client s s') :
    CountInv s' := by
  cases h with
  | create hmain hmore hlt =>
    -- the new worker did not exist, so it counted as nothing
    have habsent := (hgrow.fresh (by rw [hmain]; rfl)).2.2.2 ⟨s.workerCount, hlt⟩
    rw [if_neg (Nat.lt_irrefl _)] at habsent
    have hactive := countWhere_atWorker WorkerPc.active s ⟨s.workerCount, hlt⟩ .fetch
    have hcounted := countWhere_atWorker WorkerPc.counted s ⟨s.workerCount, hlt⟩ .fetch
    rw [habsent, ← hinv.active] at hactive
    rw [habsent, ← hinv.counted] at hcounted
    exact ⟨hactive.symm, hcounted.symm⟩
  | pushNotify hmain hasleep =>
    exact hinv.kept rfl rfl (atWorker_counts (by rw [asleep_eq hasleep]; rfl)
      (by rw [asleep_eq hasleep]; rfl))
  | resizeDown | terminateAll =>
    exact hinv.kept rfl rfl fun v => ⟨WorkerPc.notified_active _, WorkerPc.notified_counted _⟩
  | lock | resizeRefused | resizeUp | created | compute | schedule | finish | push | waitBlock
  | waited | terminateBlock | startJoin | join | joined =>
    exact hinv.kept rfl rfl fun v => ⟨rfl, rfl⟩

theorem workerMove_countInv (hinv : CountInv s) (h : WorkerMove s w s') : CountInv s' := by
  cases h with
  | lock hlock =>
    rcases WorkerPc.afterLock_eq hlock with ⟨hw, rfl⟩ | ⟨hw, rfl⟩
    · exact hinv.kept rfl rfl (atWorker_counts (by rw [hw]; rfl) (by rw [hw]; rfl))
    · exact hinv.kept rfl rfl (atWorker_counts (by rw [hw]; rfl) (by rw [hw]; rfl))
  | leave hw =>
    rcases hw with hw | hw
    · exact hinv.kept rfl rfl (atWorker_counts (by rw [hw]; rfl) (by rw [hw]; rfl))
    · exact hinv.kept rfl rfl (atWorker_counts (by rw [hw]; rfl) (by rw [hw]; rfl))
  | stay hw | take hw | done hw | exit hw =>
    exact hinv.kept rfl rfl (atWorker_counts (by rw [hw]; rfl) (by rw [hw]; rfl))
  | wake hw =>
    have hactive := countWhere_atWorker WorkerPc.active s w .loopTest
    have hcounted := countWhere_atWorker WorkerPc.counted s w .loopTest
    rw [hw, ← hinv.active] at hactive
    rw [hw, ← hinv.counted] at hcounted
    exact ⟨hactive.symm, Nat.add_right_cancel hcounted.symm⟩
  | sleep hw =>
    have hactive := countWhere_atWorker WorkerPc.active s w (.blocked false)
    have hcounted := countWhere_atWorker WorkerPc.counted s w (.blocked false)
    rw [hw, ← hinv.active] at hactive
    rw [hw, ← hinv.counted] at hcounted
    exact ⟨by rw [← Nat.add_zero s.activeWorkerCount]; exact (Nat.eq_sub_of_add_eq hactive).symm,
      Nat.add_right_cancel hcounted.symm⟩
  | destructed hw =>
    have hactive := countWhere_atWorker WorkerPc.active s w .exiting
    have hcounted := countWhere_atWorker WorkerPc.counted s w .exiting
    rw [hw, ← hinv.active] at hactive
    rw [hw, ← hinv.counted] at hcounted
    exact ⟨by rw [← Nat.add_zero s.activeWorkerCount]; exact (Nat.eq_sub_of_add_eq hactive).symm,
      by rw [← Nat.add_zero s.workerCount]; exact (Nat.eq_sub_of_add_eq hcounted).symm⟩

theorem step_countInv (hinv : CountInv s) (hgrow : GrowInv s) {a : Act n}
    (h : step client s a = some s') : CountInv s' := by
  rcases step_cases h with h | ⟨w, h⟩ | rfl | ⟨w, rfl⟩
  · exact mainMove_countInv hinv hgrow h
  · exact workerMove_countInv hinv h
  · exact hinv.kept rfl rfl fun v => ⟨rfl, rfl⟩
  · exact hinv.kept rfl rfl
      (atWorker_counts (WorkerPc.notified_active _) (WorkerPc.notified_counted _))

/-! ## Termination -/

/-- Workers leave only once they are told to, and whoever is to be joined is
past its last critical section. -/
structure TermInv (s : PoolCore κ τ n) : Prop where
  flag : s.terminateAllWorkers = s.main.terminates
  steady : s.terminateAllWorkers = false →
    s.workerCount ≤ s.targetWorkerCount ∧ ∀ v, (s.worker v).leaving = false
  listed : ∀ v ∈ s.terminatedWorkers, (s.worker v).gone = true
  joining : ∀ ws, s.main = .joining ws → ∀ v ∈ ws, (s.worker v).gone = true

theorem MainPc.afterLock_terminates {pc pc' : MainPc κ τ n} (h : pc.afterLock = some pc') :
    pc'.terminates = pc.terminates ∧ ∀ ws, pc' ≠ .joining ws := by
  unfold MainPc.afterLock at h
  split at h <;> cases h <;> exact ⟨rfl, by simp⟩

theorem MainPc.notified_eq_joining {pc : MainPc κ τ n} {ws : List (Fin n)}
    (h : pc.notified = .joining ws) : pc = .joining ws := by
  cases pc with
  | waitBlocked | terminateBlocked => cases h
  | _ => exact h

/-- A worker past `worker_destructed` stays so. -/
theorem workerMove_gone (h : WorkerMove s w s') {v : Fin n} (hgone : (s.worker v).gone = true) :
    (s'.worker v).gone = true := by
  have hset : ∀ pc, (v = w → pc.gone = true) → ((s.atWorker w pc).worker v).gone = true := by
    intro pc hpc
    by_cases hv : v = w
    · subst hv
      rw [atWorker_worker_self]
      exact hpc rfl
    · rw [atWorker_worker_ne s pc hv]
      exact hgone
  have hnot : ∀ {pc}, s.worker w = pc → pc.gone = false → v ≠ w := by
    intro pc hw hpc hv
    subst hv
    rw [hw, hpc] at hgone
    cases hgone
  cases h with
  | lock hlock =>
    rcases WorkerPc.afterLock_eq hlock with ⟨hw, -⟩ | ⟨hw, -⟩
    · exact hset _ fun hv => absurd hv (hnot hw rfl)
    · exact hset _ fun hv => absurd hv (hnot hw rfl)
  | leave hw =>
    rcases hw with hw | hw
    · exact hset _ fun hv => absurd hv (hnot hw rfl)
    · exact hset _ fun hv => absurd hv (hnot hw rfl)
  | wake hw | stay hw | sleep hw | take hw | done hw =>
    exact hset _ fun hv => absurd hv (hnot hw rfl)
  | destructed | exit => exact hset _ fun _ => rfl

/-- The owner's steps that leave the workers and the list of the terminated
ones alone. -/
theorem TermInv.kept (h : TermInv s) (hflag : s'.terminateAllWorkers = s.terminateAllWorkers)
    (hmain : s'.main.terminates = s.main.terminates) (hcount : s'.workerCount = s.workerCount)
    (htarget : s'.targetWorkerCount = s.targetWorkerCount) (hworker : s'.worker = s.worker)
    (hlist : s'.terminatedWorkers = s.terminatedWorkers)
    (hjoin : ∀ ws, s'.main = .joining ws → ∀ v ∈ ws, (s.worker v).gone = true) : TermInv s' where
  flag := by rw [hflag, hmain, h.flag]
  steady := by rw [hflag, hcount, htarget, hworker]; exact h.steady
  listed := by rw [hlist, hworker]; exact h.listed
  joining := by rw [hworker]; exact hjoin

theorem mainMove_termInv (hinv : TermInv s) (hgrow : GrowInv s) (h : MainMove client s s') :
    TermInv s' := by
  cases h with
  | lock hlock =>
    obtain ⟨hterm, hjoin⟩ := MainPc.afterLock_terminates hlock
    exact hinv.kept rfl hterm rfl rfl rfl rfl fun ws hws => absurd hws (hjoin ws)
  | resizeRefused hmain | created hmain | compute hmain | schedule hmain | finish hmain
  | push hmain | waitBlock hmain | waited hmain | terminateBlock hmain =>
    exact hinv.kept rfl (by rw [hmain]; rfl) rfl rfl rfl rfl fun ws hws => by cases hws
  | resizeUp hmain hflag hle =>
    exact ⟨hinv.flag.trans (by rw [hmain]; rfl), fun hf => ⟨hle, (hinv.steady hf).2⟩, hinv.listed,
      fun ws hws => by cases hws⟩
  | resizeDown hmain hflag hgt =>
    -- `main` resizes once, from no workers
    have hle := (hgrow.fresh (by rw [hmain]; rfl)).2.1
    omega
  | create hmain hmore hlt =>
    have habsent := (hgrow.fresh (by rw [hmain]; rfl)).2.2.2 ⟨s.workerCount, hlt⟩
    rw [if_neg (Nat.lt_irrefl _)] at habsent
    refine ⟨hinv.flag, fun hf => ⟨hmore, ?_⟩, ?_, ?_⟩
    · refine fun v => (atWorker_test WorkerPc.leaving ?_ v).trans ((hinv.steady hf).2 v)
      rw [habsent]
      rfl
    · refine fun v hv => (atWorker_test WorkerPc.gone ?_ v).trans (hinv.listed v hv)
      rw [habsent]
      rfl
    · intro ws hws
      rw [show s.main = .joining ws from hws] at hmain
      cases hmain
  | pushNotify hmain hasleep =>
    refine ⟨?_, fun hf => ⟨(hinv.steady hf).1, ?_⟩, ?_, fun ws hws => by cases hws⟩
    · exact hinv.flag.trans (by rw [hmain]; rfl)
    · exact fun v => (atWorker_test WorkerPc.leaving (by rw [asleep_eq hasleep]; rfl) v).trans
        ((hinv.steady hf).2 v)
    · exact fun v hv => (atWorker_test WorkerPc.gone (by rw [asleep_eq hasleep]; rfl) v).trans
        (hinv.listed v hv)
  | terminateAll hmain =>
    refine ⟨rfl, fun hf => (by cases hf), ?_, fun ws hws => by cases hws⟩
    exact fun v hv => (WorkerPc.notified_gone _).trans (hinv.listed v hv)
  | startJoin hmain =>
    refine hinv.kept rfl (by rw [hmain]; rfl) rfl rfl rfl rfl ?_
    intro ws hws
    cases hws
    exact hinv.listed
  | join hmain =>
    refine hinv.kept rfl (by rw [hmain]; rfl) rfl rfl rfl rfl ?_
    intro ws hws v hv
    cases hws
    exact hinv.joining _ hmain v (List.mem_cons_of_mem _ hv)
  | joined hmain =>
    exact ⟨hinv.flag.trans (by rw [hmain]; rfl), hinv.steady,
      fun v hv => absurd hv List.not_mem_nil, fun ws hws => by cases hws⟩

/-- Before the pool terminates, a step of a worker does not make it leave. -/
theorem workerMove_steady (hinv : TermInv s) (hflag : s.terminateAllWorkers = false)
    (h : WorkerMove s w s') : s'.workerCount ≤ s'.targetWorkerCount ∧
      ∀ v, (s'.worker v).leaving = false := by
  obtain ⟨hcount, hstay⟩ := hinv.steady hflag
  have hset : ∀ pc, pc.leaving = false → ∀ v, ((s.atWorker w pc).worker v).leaving = false :=
    fun pc hpc v => (atWorker_test WorkerPc.leaving (by rw [hpc, hstay w]) v).trans (hstay v)
  have hin : ∀ {pc}, s.worker w = pc → pc.leaving = true → False := by
    intro pc hw hpc
    have hout := hstay w
    rw [hw, hpc] at hout
    cases hout
  cases h with
  | lock hlock =>
    rcases WorkerPc.afterLock_eq hlock with ⟨hw, rfl⟩ | ⟨hw, -⟩
    · exact ⟨hcount, hset _ rfl⟩
    · exact False.elim (hin hw rfl)
  | leave _ hmany => omega
  | wake | stay | sleep | take | done => exact ⟨hcount, hset _ rfl⟩
  | destructed hw | exit hw => exact False.elim (hin hw rfl)

theorem workerMove_termInv (hinv : TermInv s) (h : WorkerMove s w s') : TermInv s' := by
  have hgone : ∀ v, (s.worker v).gone = true → (s'.worker v).gone = true :=
    fun v hv => workerMove_gone h hv
  have hsteady : s.terminateAllWorkers = false → s'.workerCount ≤ s'.targetWorkerCount ∧
      ∀ v, (s'.worker v).leaving = false := fun hf => workerMove_steady hinv hf h
  have hjoin : ∀ ws, s.main.notified = .joining ws → ∀ v ∈ ws, (s'.worker v).gone = true :=
    fun ws hws v hv => hgone v (hinv.joining ws (MainPc.notified_eq_joining hws) v hv)
  cases h with
  | sleep =>
    exact ⟨hinv.flag.trans (MainPc.notified_terminates _).symm, hsteady,
      fun v hv => hgone v (hinv.listed v hv), hjoin⟩
  | destructed =>
    refine ⟨hinv.flag.trans (MainPc.notified_terminates _).symm, hsteady, ?_, hjoin⟩
    intro v hv
    have hv' : v ∈ s.terminatedWorkers ∨ v = w := by
      cases hflag : s.terminateAllWorkers with
      | true => simpa [hflag] using hv
      | false => exact .inl (by simpa [hflag] using hv)
    rcases hv' with hv' | rfl
    · exact hgone v (hinv.listed v hv')
    · show ((s.atWorker v .exiting).worker v).gone = true
      rw [atWorker_worker_self]
      rfl
  | lock | wake | leave | stay | take | done | exit =>
    exact ⟨hinv.flag, hsteady, fun v hv => hgone v (hinv.listed v hv),
      fun ws hws v hv => hgone v (hinv.joining ws hws v hv)⟩

theorem step_termInv (hinv : TermInv s) (hgrow : GrowInv s) {a : Act n}
    (h : step client s a = some s') : TermInv s' := by
  rcases step_cases h with h | ⟨w, h⟩ | rfl | ⟨w, rfl⟩
  · exact mainMove_termInv hinv hgrow h
  · exact workerMove_termInv hinv h
  · exact hinv.kept rfl (MainPc.notified_terminates _) rfl rfl rfl rfl
      fun ws hws => hinv.joining ws (MainPc.notified_eq_joining hws)
  · have hleaving := atWorker_test WorkerPc.leaving (WorkerPc.notified_leaving (s.worker w))
    have hgone := atWorker_test WorkerPc.gone (WorkerPc.notified_gone (s.worker w))
    exact ⟨hinv.flag,
      fun hf => ⟨(hinv.steady hf).1, fun v => (hleaving v).trans ((hinv.steady hf).2 v)⟩,
      fun v hv => (hgone v).trans (hinv.listed v hv),
      fun ws hws v hv => (hgone v).trans (hinv.joining ws hws v hv)⟩

/-! ## Wake-ups -/

/-- No notification is missing: what a waiting owner waits for will change, and
somebody who does not sleep sees to the pending tasks. -/
structure WakeInv (s : PoolCore κ τ n) : Prop where
  waiting : s.main = .waitBlocked false → 0 < s.activeWorkerCount ∨ s.scheduler ≠ []
  terminating : s.main = .terminateBlocked false → 0 < s.activeWorkerCount
  served : 0 < n → s.main.creating = false → s.terminateAllWorkers = false →
    s.scheduler ≠ [] → ∃ v, (s.worker v).asleep = false

theorem MainPc.notified_ne_blocked (pc : MainPc κ τ n) :
    pc.notified ≠ .waitBlocked false ∧ pc.notified ≠ .terminateBlocked false := by
  cases pc <;> simp [MainPc.notified]

theorem MainPc.afterLock_not_blocked {pc pc' : MainPc κ τ n} (h : pc.afterLock = some pc') :
    pc' ≠ .waitBlocked false ∧ pc' ≠ .terminateBlocked false := by
  unfold MainPc.afterLock at h
  split at h <;> cases h <;> simp

/-- The owner's steps leave nobody to see to a task only if there is none: a
push notifies a sleeper, unless nobody sleeps. -/
theorem mainMove_served (hinv : WakeInv s) (hgrow : GrowInv s)
    (h : MainMove client s s') (hn : 0 < n) (hmain' : s'.main.creating = false)
    (hflag : s'.terminateAllWorkers = false) (htasks : s'.scheduler ≠ []) :
    ∃ v, (s'.worker v).asleep = false := by
  have hsame : s.main.creating = false → s.terminateAllWorkers = false → s.scheduler ≠ [] →
      ∃ v, (s.worker v).asleep = false := hinv.served hn
  have hempty : s.main.creating = true → s.scheduler = [] := fun h => (hgrow.fresh h).2.2.1
  cases h with
  | lock | resizeRefused | resizeUp | created | compute | schedule | finish | waitBlock | waited
  | terminateBlock | startJoin | join | joined =>
    cases hc : s.main.creating with
    | true => exact absurd (hempty hc) htasks
    | false => exact hsame hc hflag htasks
  | resizeDown hmain => exact absurd (hempty (by rw [hmain]; rfl)) htasks
  | create hmain => exact absurd (hempty (by rw [hmain]; rfl)) htasks
  | @pushNotify task k w hmain hasleep =>
    refine ⟨w, ?_⟩
    show ((s.atWorker w (.blocked true)).worker w).asleep = false
    rw [atWorker_worker_self]
    rfl
  | push hmain hawake => exact ⟨⟨0, hn⟩, hawake _⟩
  | terminateAll => cases hflag

theorem mainMove_wakeInv (hinv : WakeInv s) (hgrow : GrowInv s) (h : MainMove client s s') :
    WakeInv s' := by
  refine ⟨?_, ?_, mainMove_served hinv hgrow h⟩
  · intro hmain'
    cases h with
    | lock hlock => exact absurd hmain' (MainPc.afterLock_not_blocked hlock).1
    | create hmain => rw [show s.main = _ from hmain'] at hmain; cases hmain
    | waitBlock hmain hbusy =>
      rcases hbusy with hactive | htasks
      · exact .inl (Nat.pos_of_ne_zero hactive)
      · exact .inr fun h => by rw [h] at htasks; cases htasks
    | _ => cases hmain'
  · intro hmain'
    cases h with
    | lock hlock => exact absurd hmain' (MainPc.afterLock_not_blocked hlock).2
    | create hmain => rw [show s.main = _ from hmain'] at hmain; cases hmain
    | terminateBlock hmain hbusy => exact hbusy
    | _ => cases hmain'

/-- A worker that counts as active keeps the count above zero. -/
theorem CountInv.active_pos (h : CountInv s) (hw : (s.worker w).active = true) :
    0 < s.activeWorkerCount := by
  rw [h.active]
  exact countWhere_pos hw

theorem workerMove_wakeInv (hinv : WakeInv s) (hcount : CountInv s) (h : WorkerMove s w s') :
    WakeInv s' := by
  have hawake : ∀ {pc}, pc.asleep = false → ∃ v, ((s.atWorker w pc).worker v).asleep = false :=
    fun hpc => ⟨w, by rw [atWorker_worker_self]; exact hpc⟩
  cases h with
  | lock hlock =>
    refine ⟨hinv.waiting, hinv.terminating, fun _ _ _ _ => hawake ?_⟩
    rcases WorkerPc.afterLock_eq hlock with ⟨-, rfl⟩ | ⟨-, rfl⟩ <;> rfl
  | wake => exact ⟨fun _ => .inl (Nat.succ_pos _), fun _ => Nat.succ_pos _, fun _ _ _ _ => hawake rfl⟩
  | leave | stay | done | exit =>
    exact ⟨hinv.waiting, hinv.terminating, fun _ _ _ _ => hawake rfl⟩
  | sleep hw hempty =>
    -- the owner has just been notified, and nothing is pending
    exact ⟨fun h => absurd h (MainPc.notified_ne_blocked _).1,
      fun h => absurd h (MainPc.notified_ne_blocked _).2, fun _ _ _ h => absurd hempty h⟩
  | take hw htask =>
    -- the worker takes the task along and stays active
    have hpos := hcount.active_pos (w := w) (by rw [hw]; rfl)
    exact ⟨fun _ => .inl hpos, fun _ => hpos, fun _ _ _ _ => hawake rfl⟩
  | destructed =>
    exact ⟨fun h => absurd h (MainPc.notified_ne_blocked _).1,
      fun h => absurd h (MainPc.notified_ne_blocked _).2, fun _ _ _ _ => hawake rfl⟩

theorem step_wakeInv (hinv : WakeInv s) (hgrow : GrowInv s) (hcount : CountInv s) {a : Act n}
    (h : step client s a = some s') : WakeInv s' := by
  rcases step_cases h with h | ⟨w, h⟩ | rfl | ⟨w, rfl⟩
  · exact mainMove_wakeInv hinv hgrow h
  · exact workerMove_wakeInv hinv hcount h
  · refine ⟨fun h => absurd h (MainPc.notified_ne_blocked _).1,
      fun h => absurd h (MainPc.notified_ne_blocked _).2, ?_⟩
    exact fun hn hmain => hinv.served hn ((MainPc.notified_creating _).symm.trans hmain)
  · refine ⟨hinv.waiting, hinv.terminating, fun _ _ _ _ => ⟨w, ?_⟩⟩
    rw [atWorker_worker_self, WorkerPc.notified_asleep]

/-! ## All of them -/

/-- The invariants of the pool. -/
structure PoolInv (s : PoolCore κ τ n) : Prop where
  lock : LockInv s
  grow : GrowInv s
  count : CountInv s
  term : TermInv s
  wake : WakeInv s

theorem init_poolInv : PoolInv (PoolCore.init : PoolCore κ τ n) where
  lock := ⟨by simp [PoolCore.init, MainPc.holds], by simp [PoolCore.init, WorkerPc.holds]⟩
  grow := ⟨fun _ => ⟨rfl, Nat.zero_le _, rfl, fun _ => rfl⟩, fun _ => rfl, fun h => (by cases h),
    fun h => (by cases h)⟩
  count := ⟨(countWhere_eq_zero.mpr fun _ => rfl).symm, (countWhere_eq_zero.mpr fun _ => rfl).symm⟩
  term := ⟨rfl, fun _ => ⟨Nat.le_refl _, fun _ => rfl⟩, fun _ h => absurd h List.not_mem_nil,
    fun _ h => (by cases h)⟩
  wake := ⟨fun h => (by cases h), fun h => (by cases h), fun _ h => (by cases h)⟩

theorem step_poolInv (hinv : PoolInv s) {a : Act n} (h : step client s a = some s') :
    PoolInv s' where
  lock := step_lockInv hinv.lock h
  grow := step_growInv hinv.grow hinv.lock h
  count := step_countInv hinv.count hinv.grow h
  term := step_termInv hinv.term hinv.grow h
  wake := step_wakeInv hinv.wake hinv.grow hinv.count h

/-- The invariants hold in every state of every run. -/
theorem reachable_poolInv (h : Reachable (step client) PoolCore.init s) : PoolInv s :=
  h.invariant init_poolInv fun _ _ _ hinv hstep => step_poolInv hinv hstep

end Satf.Pool
