import Satf.Future.Core

/-!
# What the users of a future are told

`FutureInv` holds in every reachable state: who holds the monitor, what the
place of the task says about `m_ready`, `m_result` and `m_executing`, and that
no user sleeps through the notification. From it, over every run:

> `answers_agree`: the function is called at most once, and all that anyone
> is ever told about the value agrees with what it returned.
>
> `cancel_answers`: `cancel` answers `false` exactly when the value has been
> delivered and the task is over, and an answer `true` leaves the future
> cancelled.
-/

namespace Satf.Future

open Satf.Lib

variable {ρ ι : Type} {hasFunction : Bool} {s s' : FutureImpl ρ ι} {i : ι}

/-! ## The invariant -/

/-- The task holds the monitor. -/
def TaskPc.locked : TaskPc ρ → Bool
  | .valueTestReady _ | .valueTestCancelled _ | .assign _ | .publish | .notify | .unlock => true
  | _ => false

/-- The user holds the monitor. -/
def UserPc.locked : UserPc → Bool
  | .test _ | .leave _ _ => true
  | _ => false

/-- The user has read that the future is ready, and goes by it. -/
def UserPc.sawReady : UserPc → Bool
  | .leave call ready => ready || call != .timedWait
  | .read | .cancelTestExecuting => true
  | _ => false

/-- What `m_ready` and `m_result` are while the task is here. -/
def TaskPc.Cell : TaskPc ρ → Bool → Option ρ → Prop
  | .publish, ready, result => ready = false ∧ result.isSome = true
  | .notify, ready, result => ready = true ∧ result.isSome = true
  | .unlock, ready, result | .clearExecuting, ready, result | .done, ready, result =>
    ready = result.isSome
  | _, ready, result => ready = false ∧ result = none

/-- The task has called `set_execution_status(true)` and not yet taken it
back. -/
def TaskPc.executes : TaskPc ρ → Bool
  | .scheduled | .testFunction | .setExecuting | .done | .dropped => false
  | _ => true

structure FutureInv (s : FutureImpl ρ ι) : Prop where
  taskLock : s.task.locked = true ↔ s.monitor = some .task
  userLock : ∀ i, (s.user i).locked = true ↔ s.monitor = some (.user i)
  cell : s.task.Cell s.ready s.result
  executing : s.task.executes = true → s.executing = true
  finished : s.task = .done → s.ready = true → s.executing = false
  sawReady : ∀ i, (s.user i).sawReady = true → s.ready = true
  asleep : ∀ i call, s.user i = .blocked call false → s.ready = false ∨ s.task = .notify

theorem futureInv_init (executing : Bool) :
    FutureInv (FutureImpl.init executing : FutureImpl ρ ι) where
  taskLock := by simp [FutureImpl.init, TaskPc.locked]
  userLock := by simp [FutureImpl.init, UserPc.locked]
  cell := ⟨rfl, rfl⟩
  executing := fun h => absurd h (by simp [FutureImpl.init, TaskPc.executes])
  finished := fun h => absurd h (by simp [FutureImpl.init])
  sawReady := fun i h => absurd h (by simp [FutureImpl.init, UserPc.sawReady])
  asleep := fun i call h => absurd h (by simp [FutureImpl.init])

/-- The task goes on to a place that holds the monitor as the last one did. -/
theorem FutureInv.taskTo (hinv : FutureInv s) {ready executing : Bool} {result : Option ρ}
    {pc : TaskPc ρ} (hlocked : pc.locked = s.task.locked) (hcell : pc.Cell ready result)
    (hexec : pc.executes = true → executing = true)
    (hfinished : pc = .done → ready = true → executing = false)
    (hready : s.ready = true → ready = true)
    (hasleep : s.ready = false → ready = false ∨ pc = .notify) (hnotify : s.task ≠ .notify) :
    FutureInv { s with ready := ready, result := result, executing := executing, task := pc } where
  taskLock := by
    show pc.locked = true ↔ s.monitor = some .task
    rw [hlocked]
    exact hinv.taskLock
  userLock := hinv.userLock
  cell := hcell
  executing := hexec
  finished := hfinished
  sawReady := fun i h => hready (hinv.sawReady i h)
  asleep := fun i call h => hasleep ((hinv.asleep i call h).resolve_right hnotify)

@[simp] theorem UserPc.notified_locked (pc : UserPc) : pc.notified.locked = pc.locked := by
  cases pc <;> rfl

@[simp] theorem UserPc.notified_sawReady (pc : UserPc) : pc.notified.sawReady = pc.sawReady := by
  cases pc <;> rfl

theorem UserPc.notified_ne_asleep {pc : UserPc} {call : WaitCall} :
    pc.notified ≠ .blocked call false := by
  cases pc <;> simp [UserPc.notified]

theorem TaskMove.inv {es : List (Event ρ ι)} (h : TaskMove hasFunction s s' es)
    (hinv : FutureInv s) : FutureInv s' := by
  have hcell := hinv.cell
  have hexec := hinv.executing
  have hlock := hinv.taskLock
  cases h with
  | fetched htask | dropped htask | start htask =>
    rw [htask] at hcell
    exact hinv.taskTo (by rw [htask]; rfl) hcell (fun h => absurd h (by simp [TaskPc.executes]))
      (fun h => absurd h (by simp)) id .inl (by simp [htask])
  | noFunction htask =>
    rw [htask] at hcell
    refine hinv.taskTo (by rw [htask]; rfl) ?_ (fun h => absurd h (by simp [TaskPc.executes]))
      (fun _ h => absurd h (by simp [hcell.1])) id .inl (by simp [htask])
    show s.ready = s.result.isSome
    rw [hcell.1, hcell.2]
    rfl
  | setExecuting htask =>
    rw [htask] at hcell
    exact hinv.taskTo (by rw [htask]; rfl) hcell (fun _ => rfl) (fun h => absurd h (by simp)) id
      .inl (by simp [htask])
  | skip htask hcancelled =>
    rw [htask] at hcell hexec
    refine hinv.taskTo (by rw [htask]; rfl) ?_ hexec (fun h => absurd h (by simp)) id .inl
      (by simp [htask])
    show s.ready = s.result.isSome
    rw [hcell.1, hcell.2]
    rfl
  | call htask | returned htask | threw htask | notReady htask | accept htask =>
    rw [htask] at hcell hexec
    exact hinv.taskTo (by rw [htask]; rfl) hcell hexec (fun h => absurd h (by simp)) id .inl
      (by simp [htask])
  | lock htask hfree =>
    rw [htask] at hcell hexec hlock
    exact
      { taskLock := ⟨fun _ => rfl, fun _ => rfl⟩
        userLock := fun i => by
          show (s.user i).locked = true ↔ _
          rw [hinv.userLock i, hfree]
          simp
        cell := hcell
        executing := hexec
        finished := fun h => absurd h (by simp)
        sawReady := hinv.sawReady
        asleep := fun i call h => .inl ((hinv.asleep i call h).resolve_right (by simp [htask])) }
  | alreadyReady htask hready =>
    -- the value can not be there before this task has set it
    rw [htask] at hcell
    rw [hcell.1] at hready
    cases hready
  | discard htask hcancelled =>
    rw [htask] at hcell hexec
    refine hinv.taskTo (by rw [htask]; rfl) ?_ hexec (fun h => absurd h (by simp)) id .inl
      (by simp [htask])
    show s.ready = s.result.isSome
    rw [hcell.1, hcell.2]
    rfl
  | assign htask =>
    rw [htask] at hcell hexec
    exact hinv.taskTo (by rw [htask]; rfl) ⟨hcell.1, rfl⟩ hexec (fun h => absurd h (by simp)) id
      .inl (by simp [htask])
  | publish htask =>
    rw [htask] at hcell hexec
    exact hinv.taskTo (by rw [htask]; rfl) ⟨rfl, hcell.2⟩ hexec (fun h => absurd h (by simp))
      (fun _ => rfl) (fun _ => .inr rfl) (by simp [htask])
  | notify htask =>
    rw [htask] at hcell hexec hlock
    exact
      { taskLock := hlock
        userLock := fun i => by
          show (s.user i).notified.locked = true ↔ _
          rw [UserPc.notified_locked]
          exact hinv.userLock i
        cell := by
          show s.ready = s.result.isSome
          rw [hcell.1, hcell.2]
        executing := hexec
        finished := fun h => absurd h (by simp)
        sawReady := fun i h => hinv.sawReady i (by rw [← UserPc.notified_sawReady]; exact h)
        asleep := fun i call h => absurd h UserPc.notified_ne_asleep }
  | unlock htask =>
    rw [htask] at hcell hexec hlock
    exact
      { taskLock := by simp [TaskPc.locked]
        userLock := fun i => by
          show (s.user i).locked = true ↔ _
          rw [hinv.userLock i, hlock.mp rfl]
          simp
        cell := hcell
        executing := hexec
        finished := fun h => absurd h (by simp)
        sawReady := hinv.sawReady
        asleep := fun i call h => .inl ((hinv.asleep i call h).resolve_right (by simp [htask])) }
  | finish htask =>
    rw [htask] at hcell
    exact hinv.taskTo (by rw [htask]; rfl) hcell (fun h => absurd h (by simp [TaskPc.executes]))
      (fun _ _ => rfl) id .inl (by simp [htask])

/-! ### Steps of a user -/

variable [DecidableEq ι] {pc : UserPc}

/-- A family of facts about the users, after one of them has moved. -/
theorem forall_atUser {P : ι → UserPc → Prop} (h : ∀ j, P j (s.user j)) (hi : P i pc) :
    ∀ j, P j ((s.atUser i pc).user j) := by
  intro j
  show P j (Function.update s.user i pc j)
  by_cases hj : j = i
  · subst hj
    rw [Function.update_self]
    exact hi
  · rw [Function.update_of_ne hj]
    exact h j

/-- A user moves on, and the monitor with it; `cancelled` is what it leaves in
`m_is_cancelled`. -/
theorem FutureInv.userTo (hinv : FutureInv s) {monitor : Option (Holder ι)} {cancelled : Bool}
    (htask : s.monitor = some .task ↔ monitor = some .task)
    (hother : ∀ j, j ≠ i → (s.monitor = some (.user j) ↔ monitor = some (.user j)))
    (hself : pc.locked = true ↔ monitor = some (.user i))
    (hsaw : pc.sawReady = true → s.ready = true)
    (hasleep : ∀ call, pc = .blocked call false → s.ready = false) :
    FutureInv { s.atUser i pc with monitor := monitor, isCancelled := cancelled } where
  taskLock := hinv.taskLock.trans htask
  userLock := by
    intro j
    show (Function.update s.user i pc j).locked = true ↔ monitor = some (.user j)
    by_cases hj : j = i
    · subst hj
      rw [Function.update_self]
      exact hself
    · rw [Function.update_of_ne hj]
      exact (hinv.userLock j).trans (hother j hj)
  cell := hinv.cell
  executing := hinv.executing
  finished := hinv.finished
  sawReady := forall_atUser (P := fun _ pc => pc.sawReady = true → _) hinv.sawReady hsaw
  asleep := forall_atUser (P := fun _ pc => ∀ call, pc = .blocked call false → _) hinv.asleep
    fun call h => .inl (hasleep call h)

/-- A user goes on without touching the monitor. -/
theorem FutureInv.userAt (hinv : FutureInv s) {cancelled : Bool}
    (hlocked : pc.locked = (s.user i).locked) (hsaw : pc.sawReady = true → s.ready = true)
    (hasleep : ∀ call, pc ≠ .blocked call false) :
    FutureInv { s.atUser i pc with isCancelled := cancelled } := by
  refine hinv.userTo Iff.rfl (fun _ _ => Iff.rfl) ?_ hsaw (fun call h => absurd h (hasleep call))
  rw [hlocked]
  exact hinv.userLock i

/-- A user takes the monitor. -/
theorem FutureInv.userLocks (hinv : FutureInv s) (hfree : s.monitor = none)
    (hlocked : pc.locked = true) (hsaw : pc.sawReady = true → s.ready = true) :
    FutureInv { s.atUser i pc with monitor := some (.user i) } := by
  refine hinv.userTo (by simp [hfree]) ?_ (by simp [hlocked]) hsaw ?_
  · intro j hj
    simp [hfree, Ne.symm hj]
  · intro call h
    rw [h] at hlocked
    cases hlocked

/-- A user leaves the monitor. -/
theorem FutureInv.userUnlocks (hinv : FutureInv s) (hheld : (s.user i).locked = true)
    (hlocked : pc.locked = false) (hsaw : pc.sawReady = true → s.ready = true)
    (hasleep : ∀ call, pc = .blocked call false → s.ready = false) :
    FutureInv { s.atUser i pc with monitor := none } := by
  have hmonitor := (hinv.userLock i).mp hheld
  refine hinv.userTo (by simp [hmonitor]) ?_ (by simp [hlocked]) hsaw hasleep
  intro j hj
  simp [hmonitor, Ne.symm hj]

theorem UserMove.inv {es : List (Event ρ ι)} (h : UserMove s i s' es) (hinv : FutureInv s) :
    FutureInv s' := by
  have hsaw := hinv.sawReady i
  cases h with
  | ready | isCancelled => exact hinv
  | cancel huser | wait huser | timeout huser | cancelNotReady huser | cancelExecuting huser
  | got huser | cancelTooLate huser | cancelled huser =>
    exact hinv.userAt (by rw [huser]; rfl) (fun h => absurd h (by simp [UserPc.sawReady]))
      (by simp)
  | cancelReady huser hready =>
    exact hinv.userAt (by rw [huser]; rfl) (fun _ => hready) (by simp)
  | met huser hready => exact hinv.userAt (by rw [huser]; rfl) (fun _ => hready) (by simp)
  | lock huser hfree =>
    exact hinv.userLocks hfree rfl (fun h => absurd h (by simp [UserPc.sawReady]))
  | giveUp huser hfree =>
    exact hinv.userLocks hfree rfl (fun h => absurd h (by simp [UserPc.sawReady]))
  | block huser hready =>
    exact hinv.userUnlocks (by rw [huser]; rfl) rfl (fun h => absurd h (by simp [UserPc.sawReady]))
      (fun _ _ => hready)
  | waited huser | timedWaited huser =>
    exact hinv.userUnlocks (by rw [huser]; rfl) rfl (fun h => absurd h (by simp [UserPc.sawReady]))
      (by simp)
  | get huser =>
    rw [huser] at hsaw
    exact hinv.userUnlocks (by rw [huser]; rfl) rfl (fun _ => hsaw (by simp [UserPc.sawReady]))
      (by simp)

theorem step_futureInv {a : Act ρ ι} (hinv : FutureInv s) (h : step hasFunction s a = some s') :
    FutureInv s' := by
  obtain htask | ⟨i, huser⟩ | ⟨i, rfl, -⟩ := step_cases h
  · exact htask.inv hinv
  · exact huser.inv hinv
  · exact hinv.userAt (UserPc.notified_locked _)
      (fun h => hinv.sawReady i (by rw [← UserPc.notified_sawReady]; exact h))
      (fun _ => UserPc.notified_ne_asleep)

theorem reachable_futureInv {executing : Bool}
    (h : Reachable (step hasFunction) (FutureImpl.init executing) s) : FutureInv s :=
  h.invariant (futureInv_init executing) fun _ _ _ hinv hstep => step_futureInv hinv hstep

/-! ## What is settled stays so -/

/-- A value that has been delivered is not replaced, a cancellation not taken
back, and a task that is over stays so. -/
structure Settled (s s' : FutureImpl ρ ι) : Prop where
  value : s.ready = true → s'.ready = true ∧ s'.result = s.result
  cancelled : s.isCancelled = true → s'.isCancelled = true
  ended : s.task = .done → s'.task = .done

omit [DecidableEq ι] in
theorem TaskMove.settled {es : List (Event ρ ι)} (h : TaskMove hasFunction s s' es)
    (hinv : FutureInv s) : Settled s s' := by
  have hcell := hinv.cell
  cases h with
  | fetched htask | dropped htask | noFunction htask | start htask | setExecuting htask
  | skip htask | call htask | returned htask | threw htask | lock htask | alreadyReady htask
  | notReady htask | discard htask | accept htask | notify htask | unlock htask | finish htask =>
    exact ⟨fun h => ⟨h, rfl⟩, id, fun h => absurd h (by simp [htask])⟩
  | assign htask | publish htask =>
    rw [htask] at hcell
    refine ⟨fun h => absurd h ?_, id, fun h => absurd h (by simp [htask])⟩
    rw [hcell.1]
    simp

theorem UserMove.settled {es : List (Event ρ ι)} (h : UserMove s i s' es) : Settled s s' := by
  cases h with
  | cancelled => exact ⟨fun h => ⟨h, rfl⟩, fun _ => rfl, id⟩
  | _ => exact ⟨fun h => ⟨h, rfl⟩, id, id⟩

theorem step_settled {a : Act ρ ι} (hinv : FutureInv s) (h : step hasFunction s a = some s') :
    Settled s s' := by
  obtain htask | ⟨i, huser⟩ | ⟨i, rfl, -⟩ := step_cases h
  · exact htask.settled hinv
  · exact huser.settled
  · exact ⟨fun h => ⟨h, rfl⟩, id, id⟩

/-- What an answer says about the future, then and ever after. -/
def Event.Holds (s : FutureImpl ρ ι) : Event ρ ι → Prop
  | .ready _ true | .waited _ | .timedWaited _ true => s.ready = true
  | .got _ value => s.ready = true ∧ value = s.result
  | .cancel _ false => s.ready = true ∧ s.task = .done
  | .isCancelled _ true | .cancel _ true => s.isCancelled = true
  | _ => True

omit [DecidableEq ι] in
theorem Settled.holds (h : Settled s s') : ∀ e : Event ρ ι, e.Holds s → e.Holds s'
  | .ready _ true, hs | .waited _, hs | .timedWaited _ true, hs => (h.value hs).1
  | .got _ _, hs => ⟨(h.value hs.1).1, hs.2.trans (h.value hs.1).2.symm⟩
  | .cancel _ false, hs => ⟨(h.value hs.1).1, h.ended hs.2⟩
  | .isCancelled _ true, hs | .cancel _ true, hs => h.cancelled hs
  | .ready _ false, _ | .timedWaited _ false, _ | .isCancelled _ false, _ | .called, _
  | .returned _, _ => trivial

omit [DecidableEq ι] in
/-- A future that is ready and not executing has no task left. -/
theorem FutureInv.over_of_ready (hinv : FutureInv s) (hready : s.ready = true)
    (hexecuting : s.executing = false) : s.task = .done := by
  have hcell := hinv.cell
  have hexec := hinv.executing
  rw [hready] at hcell
  rw [hexecuting] at hexec
  cases htask : s.task with
  | done => rfl
  | scheduled | testFunction | setExecuting | dropped =>
    rw [htask] at hcell
    exact absurd hcell.1 (by simp)
  | _ =>
    rw [htask] at hexec
    exact absurd (hexec rfl) (by simp)

omit [DecidableEq ι] in
theorem TaskMove.holds {es : List (Event ρ ι)} (h : TaskMove hasFunction s s' es) :
    ∀ e ∈ es, e.Holds s' := by
  cases h <;> simp [Event.Holds]

/-- An answer holds when it is given. -/
theorem UserMove.holds {es : List (Event ρ ι)} (h : UserMove s i s' es) (hinv : FutureInv s) :
    ∀ e ∈ es, e.Holds s' := by
  have hsaw := hinv.sawReady i
  cases h with
  | cancel | wait | lock | met | block | timeout | giveUp | get | cancelReady | cancelNotReady
  | cancelExecuting => simp
  | ready | isCancelled =>
    simp only [List.mem_singleton, forall_eq]
    unfold Event.Holds
    split <;> simp_all
  | waited huser =>
    rw [huser] at hsaw
    simp only [List.mem_singleton, forall_eq]
    exact hsaw (by simp [UserPc.sawReady])
  | @timedWaited ready huser =>
    rw [huser] at hsaw
    simp only [List.mem_singleton, forall_eq]
    cases ready with
    | false => trivial
    | true => exact hsaw rfl
  | got huser =>
    rw [huser] at hsaw
    simp only [List.mem_singleton, forall_eq]
    exact ⟨hsaw rfl, rfl⟩
  | cancelTooLate huser hexecuting =>
    rw [huser] at hsaw
    simp only [List.mem_singleton, forall_eq]
    exact ⟨hsaw rfl, hinv.over_of_ready (hsaw rfl) hexecuting⟩
  | cancelled => simp [Event.Holds]

theorem step_holds {a : Act ρ ι} (hinv : FutureInv s) (h : step hasFunction s a = some s') :
    ∀ e ∈ events s a, e.Holds s' := by
  obtain htask | ⟨i, huser⟩ | ⟨i, -, hnone⟩ := step_cases h
  · exact htask.holds
  · exact huser.holds hinv
  · simp [hnone]

/-! ## The function -/

/-- The values the function has returned, in order. -/
def returnedOf (h : List (Event ρ ι)) : List ρ :=
  h.filterMap fun
    | .returned r => some r
    | _ => none

/-- How often the function has been called. -/
def calls (h : List (Event ρ ι)) : Nat :=
  h.countP fun
    | .called => true
    | _ => false

omit [DecidableEq ι] in
theorem returnedOf_append (h es : List (Event ρ ι)) :
    returnedOf (h ++ es) = returnedOf h ++ returnedOf es := List.filterMap_append

omit [DecidableEq ι] in
theorem calls_append (h es : List (Event ρ ι)) : calls (h ++ es) = calls h + calls es :=
  List.countP_append

/-- How often the function has been called when the task is here. -/
def TaskPc.Called : TaskPc ρ → Nat → Prop
  | .scheduled, k | .testFunction, k | .setExecuting, k | .testCancelled, k | .dropped, k => k = 0
  | .clearExecuting, k | .done, k => k ≤ 1
  | _, k => k = 1

/-- What it has returned when the task is here. -/
def TaskPc.Returned : TaskPc ρ → Option ρ → List ρ → Prop
  | .setValue r, _, l | .valueTestReady r, _, l | .valueTestCancelled r, _, l | .assign r, _, l =>
    l = [r]
  | .publish, result, l | .notify, result, l => ∃ r, result = some r ∧ l = [r]
  | .unlock, result, l | .clearExecuting, result, l | .done, result, l =>
    l.length ≤ 1 ∧ ∀ r, result = some r → l = [r]
  | _, _, l => l = []

/-- What the state says about the history. -/
structure HistoryInv (s : FutureImpl ρ ι) (h : List (Event ρ ι)) : Prop where
  called : s.task.Called (calls h)
  returned : s.task.Returned s.result (returnedOf h)
  holds : ∀ e ∈ h, e.Holds s

omit [DecidableEq ι] in
/-- A step of the task adds the call or the value that it makes. -/
theorem TaskMove.function {es : List (Event ρ ι)} {k : Nat} {l : List ρ}
    (hmove : TaskMove hasFunction s s' es) (hinv : FutureInv s) (hcalled : s.task.Called k)
    (hreturned : s.task.Returned s.result l) :
    s'.task.Called (k + calls es) ∧ s'.task.Returned s'.result (l ++ returnedOf es) := by
  have hcell := hinv.cell
  cases hmove with
  | fetched htask | dropped htask | start htask | setExecuting htask | threw htask | lock htask
  | notReady htask | accept htask | publish htask | finish htask =>
    rw [htask] at hcalled hreturned
    refine ⟨hcalled, ?_⟩
    show TaskPc.Returned _ _ (l ++ [])
    rw [List.append_nil]
    exact hreturned
  | noFunction htask | skip htask =>
    -- nothing has been called, and no value can be there
    rw [htask] at hcalled hreturned hcell
    refine ⟨Nat.le_trans (Nat.le_of_eq hcalled) (Nat.zero_le 1), ?_⟩
    show (l ++ []).length ≤ 1 ∧ ∀ r, s.result = some r → l ++ [] = [r]
    rw [hreturned]
    exact ⟨Nat.zero_le 1, fun r hr => absurd (hcell.2.symm.trans hr) (by simp)⟩
  | call htask =>
    rw [htask] at hcalled hreturned
    show k + 1 = 1 ∧ l ++ [] = []
    rw [hcalled, hreturned]
    exact ⟨rfl, rfl⟩
  | returned htask r =>
    rw [htask] at hcalled hreturned
    refine ⟨hcalled, ?_⟩
    show l ++ [r] = [r]
    rw [hreturned]
    rfl
  | alreadyReady htask | discard htask =>
    rw [htask] at hcalled hreturned hcell
    refine ⟨hcalled, ?_⟩
    show (l ++ []).length ≤ 1 ∧ ∀ r, s.result = some r → l ++ [] = [r]
    rw [hreturned]
    exact ⟨Nat.le_refl 1, fun r hr => absurd (hcell.2.symm.trans hr) (by simp)⟩
  | @assign r htask =>
    rw [htask] at hcalled hreturned
    refine ⟨hcalled, r, rfl, ?_⟩
    show l ++ [] = [r]
    rw [hreturned]
    rfl
  | notify htask =>
    rw [htask] at hcalled hreturned
    obtain ⟨r, hr, hl⟩ := hreturned
    refine ⟨hcalled, ?_⟩
    show (l ++ []).length ≤ 1 ∧ ∀ r, s.result = some r → l ++ [] = [r]
    rw [hl, hr]
    exact ⟨Nat.le_refl 1, fun r' hr' => congrArg (fun x => [x]) (Option.some.inj hr')⟩
  | unlock htask =>
    rw [htask] at hcalled hreturned
    refine ⟨Nat.le_of_eq hcalled, ?_⟩
    show (l ++ []).length ≤ 1 ∧ ∀ r, s.result = some r → l ++ [] = [r]
    rw [List.append_nil]
    exact hreturned

/-- The calls of the users are none of the function's. -/
theorem UserMove.function {es : List (Event ρ ι)} (h : UserMove s i s' es) :
    calls es = 0 ∧ returnedOf es = [] ∧ s'.task = s.task ∧ s'.result = s.result := by
  cases h <;> exact ⟨rfl, rfl, rfl, rfl⟩

/-- The history of every run. -/
theorem run_historyInv {executing : Bool} {as : List (Act ρ ι)}
    (hrun : run (step hasFunction) (FutureImpl.init executing) as = some s) :
    HistoryInv s (futureHistory hasFunction executing as) := by
  refine history_invariant ⟨rfl, rfl, by simp⟩ ?_ hrun
  intro s h a s' hreach hinv hstep
  have hfuture := reachable_futureInv hreach
  have hholds : ∀ e ∈ h ++ events s a, e.Holds s' := by
    intro e he
    rcases List.mem_append.mp he with he | he
    · exact (step_settled hfuture hstep).holds e (hinv.holds e he)
    · exact step_holds hfuture hstep e he
  have hfunction : s'.task.Called (calls h + calls (events s a)) ∧
      s'.task.Returned s'.result (returnedOf h ++ returnedOf (events s a)) := by
    obtain htask | ⟨i, huser⟩ | ⟨i, rfl, hnone⟩ := step_cases hstep
    · exact htask.function hfuture hinv.called hinv.returned
    · obtain ⟨hcalls, hreturned, htask, hresult⟩ := huser.function
      rw [hcalls, hreturned, htask, hresult, List.append_nil]
      exact ⟨hinv.called, hinv.returned⟩
    · rw [hnone]
      show _ ∧ s.task.Returned s.result (returnedOf h ++ [])
      rw [List.append_nil]
      exact ⟨hinv.called, hinv.returned⟩
  exact ⟨by rw [calls_append]; exact hfunction.1, by rw [returnedOf_append]; exact hfunction.2,
    hholds⟩

/-! ## What everybody is told -/

omit [DecidableEq ι] in
theorem FutureInv.isSome_of_ready (hinv : FutureInv s) (hready : s.ready = true) :
    ∃ r, s.result = some r := by
  have hcell := hinv.cell
  rw [hready] at hcell
  apply Option.isSome_iff_exists.mp
  cases htask : s.task with
  | unlock | clearExecuting | done => rw [htask] at hcell; exact hcell.symm
  | notify => rw [htask] at hcell; exact hcell.2
  | _ => rw [htask] at hcell; exact absurd hcell.1 (by simp)

omit [DecidableEq ι] in
/-- A value that is there is the one that the function has returned. -/
theorem HistoryInv.returned_of_result {h : List (Event ρ ι)} (hinv : HistoryInv s h)
    (hfuture : FutureInv s) {r : ρ} (hresult : s.result = some r) : returnedOf h = [r] := by
  have hreturned := hinv.returned
  have hcell := hfuture.cell
  rw [hresult] at hreturned hcell
  cases htask : s.task with
  | unlock | clearExecuting | done => rw [htask] at hreturned; exact hreturned.2 r rfl
  | publish | notify =>
    rw [htask] at hreturned
    obtain ⟨r', hr', hl⟩ := hreturned
    rw [hl, Option.some.inj hr']
  | _ => rw [htask] at hcell; exact absurd hcell.2 (by simp)

omit [DecidableEq ι] in
theorem HistoryInv.returned_length {h : List (Event ρ ι)} (hinv : HistoryInv s h) :
    (returnedOf h).length ≤ 1 := by
  have hreturned := hinv.returned
  cases htask : s.task with
  | unlock | clearExecuting | done => rw [htask] at hreturned; exact hreturned.1
  | publish | notify =>
    rw [htask] at hreturned
    obtain ⟨r, -, hl⟩ := hreturned
    rw [hl]
    exact Nat.le_refl 1
  | _ => rw [htask] at hreturned; rw [hreturned]; simp

omit [DecidableEq ι] in
theorem HistoryInv.calls_le {h : List (Event ρ ι)} (hinv : HistoryInv s h) : calls h ≤ 1 := by
  have hcalled := hinv.called
  cases htask : s.task with
  | clearExecuting | done => rw [htask] at hcalled; exact hcalled
  | _ => rw [htask] at hcalled; exact Nat.le_trans (Nat.le_of_eq hcalled) (by decide)

/-- An answer from which its reader knows that the value is there. -/
def Event.tellsReady : Event ρ ι → Bool
  | .ready _ answer | .timedWaited _ answer => answer
  | .cancel _ answer => !answer
  | .waited _ | .got _ _ => true
  | _ => false

omit [DecidableEq ι] in
theorem Event.ready_of_tells {e : Event ρ ι} (h : e.tellsReady = true) (hholds : e.Holds s) :
    s.ready = true := by
  cases e with
  | ready i answer | timedWaited i answer =>
    cases answer with
    | false => cases h
    | true => exact hholds
  | cancel i answer =>
    cases answer with
    | false => exact hholds.1
    | true => cases h
  | waited i => exact hholds
  | got i value => exact hholds.1
  | _ => cases h

/-- **Everybody is told the same.** In every run, whoever calls what and
whenever: the function is called at most once and returns at most one value;
where anyone has been told that the value is there (by `ready`, `wait`,
`timed_wait`, or a refused `cancel`), the function has returned and its value
is stored; and whatever any `get` has answered is that value. -/
theorem answers_agree {executing : Bool} {as : List (Act ρ ι)}
    (hrun : run (step hasFunction) (FutureImpl.init executing) as = some s) :
    calls (futureHistory hasFunction executing as) ≤ 1 ∧
      (returnedOf (futureHistory hasFunction executing as)).length ≤ 1 ∧
      (∀ e ∈ futureHistory hasFunction executing as, e.tellsReady = true →
        ∃ r, returnedOf (futureHistory hasFunction executing as) = [r] ∧ s.result = some r) ∧
      ∀ i value, .got i value ∈ futureHistory hasFunction executing as →
        ∃ r, returnedOf (futureHistory hasFunction executing as) = [r] ∧ value = some r := by
  have hinv := run_historyInv hrun
  have hfuture := reachable_futureInv ⟨as, hrun⟩
  refine ⟨hinv.calls_le, hinv.returned_length, ?_, ?_⟩
  · intro e he htells
    obtain ⟨r, hr⟩ := hfuture.isSome_of_ready (e.ready_of_tells htells (hinv.holds e he))
    exact ⟨r, hinv.returned_of_result hfuture hr, hr⟩
  · intro i value hgot
    obtain ⟨hready, hvalue⟩ := hinv.holds _ hgot
    obtain ⟨r, hr⟩ := hfuture.isSome_of_ready hready
    exact ⟨r, hinv.returned_of_result hfuture hr, hvalue.trans hr⟩

/-- One user calls `get` and waits; the task stores 7; meanwhile the other
cancels, and is told that it could. -/
def getSeven : List (Act Nat Bool) :=
  [.call false (.wait .get), .user false, .user false] ++ List.replicate 4 .task
    ++ [.returns 7] ++ List.replicate 6 .task
    ++ [.call true .cancel, .user true, .user true, .user true]
    ++ List.replicate 2 .task ++ List.replicate 4 (.user false)

/-- The cancellation comes too late to stop the value, although `cancel` has
answered `true`. -/
example : futureHistory true false getSeven
    = [.called, .returned 7, .cancel true true, .got false (some 7)] := rfl

/-- The theorem on that run. -/
theorem answers_agree_seven :
    ∃ s, run (step true) (FutureImpl.init false) getSeven = some s ∧
      ∀ i value, .got i value ∈ futureHistory true false getSeven →
        ∃ r, returnedOf (futureHistory true false getSeven) = [r] ∧ value = some r := by
  have hrun : (run (step true) (FutureImpl.init false) getSeven).map (fun s => s.ready)
      = some true := rfl
  obtain ⟨s, hs, -⟩ := Option.map_eq_some_iff.mp hrun
  exact ⟨s, hs, (answers_agree hs).2.2.2⟩

/-! ## What `cancel` answers -/

/-- The task is over and the value delivered, and user `i` has been told no
such thing as a cancellation and is not on the way to one. -/
structure TooLate (i : ι) (s : FutureImpl ρ ι) (h : List (Event ρ ι)) : Prop where
  ready : s.ready = true
  ended : s.task = .done
  user : s.user i ≠ .cancelWrite
  refused : .cancel i true ∉ h

theorem UserPc.notified_ne_cancelWrite {pc : UserPc} (h : pc ≠ .cancelWrite) :
    pc.notified ≠ .cancelWrite := by
  cases pc with
  | blocked => exact fun h => absurd h (by simp [UserPc.notified])
  | _ => exact h

omit [DecidableEq ι] in
theorem TaskMove.not_over {es : List (Event ρ ι)} (h : TaskMove hasFunction s s' es) :
    s.task ≠ .done := by
  cases h <;> simp [*]

theorem UserMove.tooLate {es h : List (Event ρ ι)} {j : ι} (hmove : UserMove s j s' es)
    (hinv : FutureInv s) (hlate : TooLate i s h) : TooLate i s' (h ++ es) := by
  obtain ⟨hready, hover, huser, hrefused⟩ := hlate
  have hexecuting := hinv.finished hover hready
  -- only `cancelWrite` answers `true`, and only a test that succeeds leads there
  have hkeep : ∀ {pc : UserPc}, (j = i → pc ≠ .cancelWrite) →
      (s.atUser j pc).user i ≠ .cancelWrite := by
    intro pc hpc
    show Function.update s.user j pc i ≠ .cancelWrite
    by_cases hj : i = j
    · subst hj
      rw [Function.update_self]
      exact hpc rfl
    · rw [Function.update_of_ne hj]
      exact huser
  cases hmove with
  | ready | isCancelled => exact ⟨hready, hover, huser, by simp [hrefused]⟩
  | cancelNotReady huserj hnot => exact absurd hready (by simp [hnot])
  | cancelExecuting huserj hexec => exact absurd hexec (by simp [hexecuting])
  | cancelled huserj =>
    have hj : j ≠ i := fun h => huser (h ▸ huserj)
    exact ⟨hready, hover, hkeep (by simp), by simp [hrefused, Ne.symm hj]⟩
  | cancelTooLate => exact ⟨hready, hover, hkeep (by simp), by simp [hrefused]⟩
  | _ => exact ⟨hready, hover, hkeep (by simp), by simp [hrefused]⟩

/-- Who calls `cancel` when the task is over is refused. -/
theorem late_cancel_refused {executing : Bool}
    (hreach : Reachable (step hasFunction) (FutureImpl.init executing) s) (hready : s.ready = true)
    (hover : s.task = .done) (hidle : s.user i = .idle) {bs : List (Act ρ ι)}
    (hrun : run (step hasFunction) s bs = some s') :
    .cancel i true ∉ history (step hasFunction) events s bs := by
  have hlate : TooLate i s' (history (step hasFunction) events s bs) := by
    refine history_invariant ⟨hready, hover, by simp [hidle], by simp⟩ ?_ hrun
    intro t h a t' ht hlate hstep
    have hinv := reachable_futureInv (hreach.trans ht)
    obtain htask | ⟨j, huser⟩ | ⟨j, rfl, hnone⟩ := step_cases hstep
    · exact absurd hlate.ended htask.not_over
    · exact huser.tooLate hinv hlate
    · rw [hnone, List.append_nil]
      refine ⟨hlate.ready, hlate.ended, ?_, hlate.refused⟩
      exact forall_atUser (P := fun k pc => k = i → pc ≠ .cancelWrite)
        (fun k hk => hk ▸ hlate.user) (fun hj => hj ▸ UserPc.notified_ne_cancelWrite hlate.user)
        i rfl
  exact hlate.refused

/-- **What an answer of `cancel` means.** In every run: a `cancel` answered
`true` has left the future cancelled for good; one answered `false` was too
late, with the value delivered and the task over; and once that is so, in any
continuation, every user that is not in the middle of a call is answered
`false`. -/
theorem cancel_answers {executing : Bool} {as : List (Act ρ ι)}
    (hrun : run (step hasFunction) (FutureImpl.init executing) as = some s) :
    (∀ i, .cancel i true ∈ futureHistory hasFunction executing as → s.isCancelled = true) ∧
      (∀ i, .cancel i false ∈ futureHistory hasFunction executing as →
        s.ready = true ∧ s.task = .done) ∧
      (s.ready = true → s.task = .done → ∀ i, s.user i = .idle → ∀ bs s',
        run (step hasFunction) s bs = some s' →
          .cancel i true ∉ history (step hasFunction) events s bs) := by
  have hinv := run_historyInv hrun
  refine ⟨fun i h => hinv.holds _ h, fun i h => hinv.holds _ h, ?_⟩
  intro hready hover i hidle bs s' hbs
  exact late_cancel_refused ⟨as, hrun⟩ hready hover hidle hbs

/-- The theorem on the same run: the future is cancelled, and the user that has
cancelled it would now be refused. -/
theorem cancel_answers_seven :
    ∃ s, run (step true) (FutureImpl.init false) getSeven = some s ∧
      s.isCancelled = true ∧ ∀ bs s', run (step true) s bs = some s' →
        .cancel true true ∉ history (step true) events s bs := by
  have hrun : (run (step true) (FutureImpl.init false) getSeven).map
      (fun s => (s.isCancelled, s.ready, s.task, s.user true))
        = some (true, true, .done, .idle) := rfl
  obtain ⟨s, hs, hfields⟩ := Option.map_eq_some_iff.mp hrun
  obtain ⟨hcancelled, hfields⟩ := Prod.mk.inj hfields
  obtain ⟨hready, hfields⟩ := Prod.mk.inj hfields
  obtain ⟨htask, huser⟩ := Prod.mk.inj hfields
  exact ⟨s, hs, hcancelled, (cancel_answers hs).2.2 hready htask true huser⟩

end Satf.Future
