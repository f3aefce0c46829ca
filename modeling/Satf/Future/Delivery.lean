import Satf.Future.Protocol

/-!
# Whether a future is ever ready

A future is lost when no continuation can make it ready: it was cancelled
before `set_value` looked, or its task was dropped, threw, had no function, or
is past the place where the value is stored. `deliverable_iff` says that these
are the only ways. Users may wait for a lost future for ever;
`stuck_waiters` says that they wait for nothing else.

The constructor leaves `m_executing` without a value, and `cancel` reads it.
`initial_executing_unread` says that no run depends on what it was.
-/

namespace Satf.Future

open Satf.Lib

variable {ρ ι : Type} {hasFunction : Bool} {s s' : FutureImpl ρ ι}

/-! ## Lost futures -/

/-- The task is here and the value will not be stored: the function is empty,
the flag is still to be looked at and set, or it is over with storing. -/
def TaskPc.Lost (hasFunction cancelled : Bool) : TaskPc ρ → Prop
  | .scheduled | .testFunction => hasFunction = false ∨ cancelled = true
  | .setExecuting | .testCancelled | .calling | .setValue _ | .valueTestReady _
  | .valueTestCancelled _ => cancelled = true
  | .assign _ | .publish | .notify => False
  | .unlock | .clearExecuting | .done | .threw | .dropped => True

def Lost (hasFunction : Bool) (s : FutureImpl ρ ι) : Prop :=
  s.ready = false ∧ s.task.Lost hasFunction s.isCancelled

theorem TaskPc.Lost.cancel {cancelled : Bool} {pc : TaskPc ρ} (h : pc.Lost hasFunction cancelled) :
    pc.Lost hasFunction true := by
  cases pc with
  | scheduled | testFunction => exact .inr rfl
  | assign | publish | notify => exact h
  | _ => trivial

theorem TaskMove.lost {es : List (Event ρ ι)} (h : TaskMove hasFunction s s' es)
    (hlost : Lost hasFunction s) : Lost hasFunction s' := by
  obtain ⟨hready, hlost⟩ := hlost
  cases h with
  | fetched htask => rw [htask] at hlost; exact ⟨hready, hlost⟩
  | start htask hfunction =>
    rw [htask] at hlost
    exact ⟨hready, hlost.resolve_left (by simp [hfunction])⟩
  | call htask hnot => rw [htask] at hlost; exact absurd hlost (by simp [TaskPc.Lost, hnot])
  | accept htask hnot => rw [htask] at hlost; exact absurd hlost (by simp [TaskPc.Lost, hnot])
  | setExecuting htask | returned htask | lock htask | notReady htask =>
    rw [htask] at hlost
    exact ⟨hready, hlost⟩
  | dropped | noFunction | skip | threw | alreadyReady | discard | notify | unlock | finish =>
    exact ⟨hready, trivial⟩
  | assign htask | publish htask => rw [htask] at hlost; exact hlost.elim

variable [DecidableEq ι] {i : ι}

theorem UserMove.lost {es : List (Event ρ ι)} (h : UserMove s i s' es)
    (hlost : Lost hasFunction s) : Lost hasFunction s' := by
  cases h with
  | cancelled => exact ⟨hlost.1, hlost.2.cancel⟩
  | _ => exact hlost

theorem step_lost {a : Act ρ ι} (hlost : Lost hasFunction s)
    (h : step hasFunction s a = some s') : Lost hasFunction s' := by
  obtain htask | ⟨i, huser⟩ | ⟨i, rfl, -⟩ := step_cases h
  · exact htask.lost hlost
  · exact huser.lost hlost
  · exact hlost

theorem run_lost (hlost : Lost hasFunction s) (h : Reachable (step hasFunction) s s') :
    Lost hasFunction s' :=
  h.invariant hlost fun _ _ _ hlost hstep => step_lost hlost hstep

/-! ## Futures that are not lost -/

/-- Some continuation makes the future ready. -/
def Deliverable (hasFunction : Bool) (s : FutureImpl ρ ι) : Prop :=
  ∃ s', Reachable (step hasFunction) s s' ∧ s'.ready = true

theorem Deliverable.of_step {a : Act ρ ι} (h : step hasFunction s a = some s')
    (hs' : Deliverable hasFunction s') : Deliverable hasFunction s := by
  obtain ⟨t, hreach, hready⟩ := hs'
  exact ⟨t, ((Reachable.refl _ s).step h).trans hreach, hready⟩

theorem deliverable_publish (htask : s.task = .publish) : Deliverable hasFunction s := by
  have hstep : step hasFunction s .task = some { s with ready := true, task := .notify } := by
    simp only [step, taskStep, htask]
  exact .of_step hstep ⟨_, Reachable.refl _ _, rfl⟩

theorem deliverable_assign {r : ρ} (htask : s.task = .assign r) : Deliverable hasFunction s := by
  have hstep : step hasFunction s .task = some { s with result := some r, task := .publish } := by
    simp only [step, taskStep, htask]
  exact .of_step hstep (deliverable_publish rfl)

theorem deliverable_valueTestCancelled {r : ρ} (htask : s.task = .valueTestCancelled r)
    (hnot : s.isCancelled = false) : Deliverable hasFunction s := by
  have hstep : step hasFunction s .task = some { s with task := .assign r } := by
    simp only [step, taskStep, htask, hnot]
    rfl
  exact .of_step hstep (deliverable_assign rfl)

theorem deliverable_valueTestReady {r : ρ} (htask : s.task = .valueTestReady r)
    (hready : s.ready = false) (hnot : s.isCancelled = false) : Deliverable hasFunction s := by
  have hstep : step hasFunction s .task = some { s with task := .valueTestCancelled r } := by
    simp only [step, taskStep, htask, hready]
    rfl
  exact .of_step hstep (deliverable_valueTestCancelled rfl hnot)

/-- A user that holds the monitor leaves it with its next step. -/
theorem exists_free (hasFunction : Bool) (hinv : FutureInv s) (hunlocked : s.task.locked = false)
    (hready : s.ready = false) :
    ∃ s', Reachable (step hasFunction) s s' ∧ s'.monitor = none ∧ s'.task = s.task ∧
      s'.ready = false ∧ s'.isCancelled = s.isCancelled := by
  have hstep : ∀ (i : ι) pc,
      step hasFunction s (.user i) = some { s.atUser i pc with monitor := none } →
      ∃ s', Reachable (step hasFunction) s s' ∧ s'.monitor = none ∧ s'.task = s.task ∧
        s'.ready = false ∧ s'.isCancelled = s.isCancelled :=
    fun i pc h => ⟨_, (Reachable.refl _ s).step h, rfl, rfl, hready, rfl⟩
  cases hmonitor : s.monitor with
  | none => exact ⟨s, Reachable.refl _ s, hmonitor, rfl, hready, rfl⟩
  | some holder =>
    cases holder with
    | task => exact absurd (hinv.taskLock.mpr hmonitor) (by simp [hunlocked])
    | user i =>
      have hlocked := (hinv.userLock i).mpr hmonitor
      cases huser : s.user i with
      | test call =>
        apply hstep i (.blocked call false)
        simp only [step, userStep, huser, hready]
        rfl
      | leave call ready =>
        apply hstep i (if call = .get then .read else .idle)
        simp only [step, userStep, huser]
      | _ => rw [huser] at hlocked; cases hlocked

theorem deliverable_setValue {r : ρ} (hinv : FutureInv s) (htask : s.task = .setValue r)
    (hready : s.ready = false) (hnot : s.isCancelled = false) : Deliverable hasFunction s := by
  obtain ⟨t, hreach, hfree, httask, htready, htnot⟩ :=
    exists_free hasFunction hinv (by rw [htask]; rfl) hready
  have hstep : step hasFunction t .task
      = some { t with monitor := some .task, task := .valueTestReady r } := by
    simp only [step, taskStep, httask, htask, FutureImpl.lockTask, hfree]
  obtain ⟨t', hreach', ht'⟩ : Deliverable hasFunction t :=
    .of_step hstep (deliverable_valueTestReady rfl htready (htnot.trans hnot))
  exact ⟨t', hreach.trans hreach', ht'⟩

/-- The places before the function is called, with the steps that lead from
one to the next. -/
theorem deliverable_calling (r : ρ) (hinv : FutureInv s) (htask : s.task = .calling)
    (hready : s.ready = false) (hnot : s.isCancelled = false) : Deliverable hasFunction s := by
  have hmove : TaskMove hasFunction s _ _ := .returned htask r
  have hnext := hmove.inv hinv
  refine .of_step (a := .returns r) ?_ (deliverable_setValue hnext rfl hready hnot)
  simp only [step, functionStep, htask]

theorem deliverable_testCancelled (r : ρ) (hinv : FutureInv s) (htask : s.task = .testCancelled)
    (hready : s.ready = false) (hnot : s.isCancelled = false) : Deliverable hasFunction s := by
  have hmove : TaskMove hasFunction s _ _ := .call htask hnot
  have hnext := hmove.inv hinv
  refine .of_step (a := .task) ?_ (deliverable_calling r hnext rfl hready hnot)
  simp only [step, taskStep, htask, hnot]
  rfl

theorem deliverable_setExecuting (r : ρ) (hinv : FutureInv s) (htask : s.task = .setExecuting)
    (hready : s.ready = false) (hnot : s.isCancelled = false) : Deliverable hasFunction s := by
  have hmove : TaskMove hasFunction s _ _ := .setExecuting htask
  have hnext := hmove.inv hinv
  refine .of_step (a := .task) ?_ (deliverable_testCancelled r hnext rfl hready hnot)
  simp only [step, taskStep, htask]

theorem deliverable_testFunction (r : ρ) (hinv : FutureInv s) (htask : s.task = .testFunction)
    (hfunction : hasFunction = true) (hready : s.ready = false) (hnot : s.isCancelled = false) :
    Deliverable hasFunction s := by
  have hnext := (TaskMove.start htask hfunction).inv hinv
  refine .of_step (a := .task) ?_ (deliverable_setExecuting r hnext rfl hready hnot)
  simp only [step, taskStep, htask, hfunction]
  rfl

theorem deliverable_scheduled (r : ρ) (hinv : FutureInv s) (htask : s.task = .scheduled)
    (hfunction : hasFunction = true) (hready : s.ready = false) (hnot : s.isCancelled = false) :
    Deliverable hasFunction s := by
  have hmove : TaskMove hasFunction s _ _ := .fetched htask
  have hnext := hmove.inv hinv
  refine .of_step (a := .task) ?_ (deliverable_testFunction r hnext rfl hfunction hready hnot)
  simp only [step, taskStep, htask]

/-- **Which futures can still be fulfilled.** In every reachable state, some
continuation makes the future ready unless it is lost; and a lost future stays
lost in every continuation. -/
theorem deliverable_iff [Inhabited ρ] {executing : Bool}
    (hreach : Reachable (step hasFunction) (FutureImpl.init executing) s) :
    (∃ s', Reachable (step hasFunction) s s' ∧ s'.ready = true) ↔ ¬Lost hasFunction s := by
  have hinv := reachable_futureInv hreach
  constructor
  · intro ⟨s', hs', hready⟩ hlost
    exact absurd (run_lost hlost hs').1 (by simp [hready])
  · intro hnot
    cases hready : s.ready with
    | true => exact ⟨s, Reachable.refl _ s, hready⟩
    | false =>
      have hnot : ¬s.task.Lost hasFunction s.isCancelled := fun h => hnot ⟨hready, h⟩
      cases htask : s.task with
      | scheduled =>
        rw [htask] at hnot
        obtain ⟨hfunction, hnot⟩ := not_or.mp hnot
        exact deliverable_scheduled default hinv htask ((Bool.not_eq_false _).mp hfunction) hready
          (Bool.eq_false_iff.mpr hnot)
      | testFunction =>
        rw [htask] at hnot
        obtain ⟨hfunction, hnot⟩ := not_or.mp hnot
        exact deliverable_testFunction default hinv htask ((Bool.not_eq_false _).mp hfunction)
          hready (Bool.eq_false_iff.mpr hnot)
      | setExecuting =>
        rw [htask] at hnot
        exact deliverable_setExecuting default hinv htask hready (Bool.eq_false_iff.mpr hnot)
      | testCancelled =>
        rw [htask] at hnot
        exact deliverable_testCancelled default hinv htask hready (Bool.eq_false_iff.mpr hnot)
      | calling =>
        rw [htask] at hnot
        exact deliverable_calling default hinv htask hready (Bool.eq_false_iff.mpr hnot)
      | setValue r =>
        rw [htask] at hnot
        exact deliverable_setValue hinv htask hready (Bool.eq_false_iff.mpr hnot)
      | valueTestReady r =>
        rw [htask] at hnot
        exact deliverable_valueTestReady htask hready (Bool.eq_false_iff.mpr hnot)
      | valueTestCancelled r =>
        rw [htask] at hnot
        exact deliverable_valueTestCancelled htask (Bool.eq_false_iff.mpr hnot)
      | assign r => exact deliverable_assign htask
      | publish => exact deliverable_publish htask
      | notify =>
        have hcell := hinv.cell
        rw [htask] at hcell
        exact absurd hready (by simp [hcell.1])
      | unlock | clearExecuting | done | threw | dropped =>
        rw [htask] at hnot
        exact absurd trivial hnot

/-- A user waits for a future, and its function is being called. -/
def waitedFor : List (Act Nat Bool) :=
  [.call false (.wait .wait), .user false, .user false] ++ List.replicate 4 .task

/-- The other user cancels it before the function returns. -/
def cancelInside : List (Act Nat Bool) := waitedFor ++ [.call true .cancel, .user true, .user true]

/-- The theorem on these two runs: the first future can be made ready, the second
cannot, though its function has been called and may return. -/
theorem deliverable_iff_cancelled_inside :
    (∃ s : FutureImpl Nat Bool, run (step true) (FutureImpl.init true) waitedFor = some s ∧
      s.task = .calling ∧ ∃ s', Reachable (step true) s s' ∧ s'.ready = true) ∧
    ∃ s : FutureImpl Nat Bool, run (step true) (FutureImpl.init true) cancelInside = some s ∧
      s.task = .calling ∧ ¬∃ s', Reachable (step true) s s' ∧ s'.ready = true := by
  have hwaited : (run (step true) (FutureImpl.init true) waitedFor).map
      (fun s => (s.task, s.ready, s.isCancelled)) = some (.calling, false, false) := rfl
  have hcancelled : (run (step true) (FutureImpl.init true) cancelInside).map
      (fun s => (s.task, s.ready, s.isCancelled)) = some (.calling, false, true) := rfl
  obtain ⟨s, hs, hfields⟩ := Option.map_eq_some_iff.mp hwaited
  obtain ⟨s', hs', hfields'⟩ := Option.map_eq_some_iff.mp hcancelled
  simp only [Prod.mk.injEq] at hfields hfields'
  obtain ⟨htask, -, hnot⟩ := hfields
  obtain ⟨htask', hready', hset'⟩ := hfields'
  have hopen : ¬Lost true s := by
    intro hlost
    have hset := hlost.2
    rw [htask, hnot] at hset
    exact absurd hset (by simp [TaskPc.Lost])
  have hlost : Lost true s' := ⟨hready', by rw [htask', hset']; rfl⟩
  exact ⟨⟨s, hs, htask, (deliverable_iff ⟨_, hs⟩).mpr hopen⟩,
    ⟨s', hs', htask', fun h => (deliverable_iff ⟨_, hs'⟩).mp h hlost⟩⟩

/-! ## What is seen of a lost future -/

/-- The function has not been called and will not be. -/
def TaskPc.passesBy : TaskPc ρ → Bool
  | .scheduled | .testFunction | .setExecuting | .testCancelled | .clearExecuting | .done
  | .dropped => true
  | _ => false

omit [DecidableEq ι] in
theorem TaskMove.passesBy {es : List (Event ρ ι)} (h : TaskMove hasFunction s s' es)
    (hlost : Lost hasFunction s) (hpasses : s.task.passesBy = true) :
    s'.task.passesBy = true ∧ calls es = 0 := by
  cases h with
  | fetched | dropped | noFunction | start | setExecuting | skip | finish => exact ⟨rfl, rfl⟩
  | call htask hnot =>
    have hcancelled := hlost.2
    rw [htask] at hcancelled
    exact absurd hcancelled (by simp [TaskPc.Lost, hnot])
  | returned htask | threw htask | lock htask | alreadyReady htask | notReady htask | discard htask
  | accept htask | assign htask | publish htask | notify htask | unlock htask =>
    rw [htask] at hpasses
    cases hpasses

/-- **Nobody hears from a lost future.** From a reachable state in which the
future is lost, in every continuation, no `ready`, `wait`, `timed_wait`, `get`
or refused `cancel` tells anyone that the value is there; and if the function
has not been called, it never is. -/
theorem lost_never_told {executing : Bool}
    (hreach : Reachable (step hasFunction) (FutureImpl.init executing) s)
    (hlost : Lost hasFunction s) {bs : List (Act ρ ι)}
    (hrun : run (step hasFunction) s bs = some s') :
    (∀ e ∈ history (step hasFunction) events s bs, e.tellsReady = false) ∧
      (s.task.passesBy = true → calls (history (step hasFunction) events s bs) = 0) := by
  have hholds : ∀ e ∈ history (step hasFunction) events s bs, e.Holds s' := by
    refine @history_invariant _ _ _ _ _ _ (fun t h => ∀ e ∈ h, Event.Holds t e) (by simp) ?_
      _ _ hrun
    intro t h a t' ht hkeep hstep e he
    have hinv := reachable_futureInv (hreach.trans ht)
    rcases List.mem_append.mp he with he | he
    · exact (step_settled hinv hstep).holds e (hkeep e he)
    · exact step_holds hinv hstep e he
  constructor
  · intro e he
    apply Bool.eq_false_iff.mpr
    intro htells
    have hready := (run_lost hlost ⟨bs, hrun⟩).1
    exact absurd (e.ready_of_tells htells (hholds e he)) (by simp [hready])
  · intro hpasses
    have hkeep : s'.task.passesBy = true ∧ calls (history (step hasFunction) events s bs) = 0 := by
      refine @history_invariant _ _ _ _ _ _ (fun t h => t.task.passesBy = true ∧ calls h = 0)
        ⟨hpasses, rfl⟩ ?_ _ _ hrun
      intro t h a t' ht hkeep hstep
      rw [calls_append, hkeep.2]
      obtain htask | ⟨i, huser⟩ | ⟨i, rfl, hnone⟩ := step_cases hstep
      · obtain ⟨hpc, hcalls⟩ := htask.passesBy (run_lost hlost ht) hkeep.1
        exact ⟨hpc, by rw [hcalls]⟩
      · obtain ⟨hcalls, -, hpc, -⟩ := huser.function
        exact ⟨by rw [hpc]; exact hkeep.1, by rw [hcalls]⟩
      · exact ⟨hkeep.1, by rw [hnone]; rfl⟩
    exact hkeep.2

/-- One user cancels before the task is taken. -/
def cancelFirst : List (Act Nat Bool) := [.call true .cancel, .user true, .user true]

/-- The task then passes by, and the other user waits. -/
def passBy : List (Act Nat Bool) :=
  [.call false (.wait .wait), .user false, .user false] ++ List.replicate 5 .task

/-- The theorem on that run. -/
theorem lost_never_told_passBy :
    ∃ s s' : FutureImpl Nat Bool, run (step true) (FutureImpl.init true) cancelFirst = some s ∧
      run (step true) s passBy = some s' ∧ s'.task = .done ∧
      (∀ e ∈ history (step true) events s passBy, e.tellsReady = false) ∧
      calls (history (step true) events s passBy) = 0 := by
  have hrun : (run (step true) (FutureImpl.init true) cancelFirst).map
      (fun s => (s.ready, s.isCancelled, s.task, (run (step true) s passBy).map (·.task)))
        = some (false, true, .scheduled, some .done) := rfl
  obtain ⟨s, hs, hfields⟩ := Option.map_eq_some_iff.mp hrun
  obtain ⟨hready, hfields⟩ := Prod.mk.inj hfields
  obtain ⟨hcancelled, hfields⟩ := Prod.mk.inj hfields
  obtain ⟨htask, hpass⟩ := Prod.mk.inj hfields
  obtain ⟨s', hs', hdone⟩ := Option.map_eq_some_iff.mp hpass
  have hlost : Lost true s := ⟨hready, by rw [htask]; exact .inr hcancelled⟩
  obtain ⟨htold, hcalls⟩ := lost_never_told ⟨cancelFirst, hs⟩ hlost hs'
  exact ⟨s, s', hs, hs', hdone, htold, hcalls (by rw [htask]; rfl)⟩

/-! ## Who waits for ever -/

/-- Steps that a thread takes of its own: the function comes to its end one way
or the other. -/
def Act.ofThread : Act ρ ι → Prop
  | .task | .returns _ | .throws | .user _ => True
  | _ => False

/-- Why there is no value once the task is past storing it. -/
def Reason (hasFunction : Bool) (s : FutureImpl ρ ι) : Prop :=
  match s.task with
  | .unlock | .clearExecuting => s.ready = true ∨ s.isCancelled = true
  | .done => s.ready = true ∨ hasFunction = false ∨ s.isCancelled = true
  | _ => True

omit [DecidableEq ι] in
theorem TaskMove.reason {es : List (Event ρ ι)} (h : TaskMove hasFunction s s' es)
    (hinv : FutureInv s) (hreason : Reason hasFunction s) : Reason hasFunction s' := by
  have hcell := hinv.cell
  unfold Reason at hreason
  cases h with
  | noFunction htask hempty => exact .inr (.inl hempty)
  | skip htask hcancelled => exact .inr hcancelled
  | discard htask hcancelled => exact .inr hcancelled
  | alreadyReady htask hready => exact .inl hready
  | notify htask => rw [htask] at hcell; exact .inl hcell.1
  | unlock htask => rw [htask] at hreason; exact hreason
  | finish htask => rw [htask] at hreason; exact hreason.imp_right .inr
  | _ => trivial

omit [DecidableEq ι] in
theorem Reason.of_settled (htask : s'.task = s.task) (h : Settled s s')
    (hreason : Reason hasFunction s) : Reason hasFunction s' := by
  have hready : s.ready = true → s'.ready = true := fun hs => (h.value hs).1
  unfold Reason at hreason ⊢
  rw [htask]
  cases hpc : s.task with
  | unlock | clearExecuting => rw [hpc] at hreason; exact hreason.imp hready h.cancelled
  | done => rw [hpc] at hreason; exact hreason.imp hready (Or.imp_right h.cancelled)
  | _ => trivial

theorem reachable_reason {executing : Bool}
    (hreach : Reachable (step hasFunction) (FutureImpl.init executing) s) :
    Reason hasFunction s := by
  refine hreach.invariant_along trivial ?_
  intro s a s' hs hreason hstep
  have hinv := reachable_futureInv hs
  obtain htask | ⟨i, huser⟩ | ⟨i, rfl, -⟩ := step_cases hstep
  · exact htask.reason hinv hreason
  · exact hreason.of_settled huser.function.2.2.1 huser.settled
  · exact hreason

omit [DecidableEq ι] in
/-- The task can go on, or waits for the monitor, for the function, or for
nothing. -/
theorem taskStep_eq_none (h : taskStep hasFunction s = none) :
    s.monitor ≠ none ∧ s.task.locked = false ∨ s.task = .calling ∨ s.task = .done ∨
      s.task = .threw ∨ s.task = .dropped := by
  unfold taskStep at h
  cases htask : s.task with
  | setValue r =>
    rw [htask] at h
    refine .inl ⟨fun hfree => ?_, rfl⟩
    simp [FutureImpl.lockTask, hfree] at h
  | testFunction | testCancelled | valueTestReady r | valueTestCancelled r =>
    rw [htask] at h
    simp only at h
    split at h <;> cases h
  | scheduled | setExecuting | assign r | publish | notify | unlock | clearExecuting =>
    rw [htask] at h
    cases h
  | _ => simp

/-- A user can go on, or waits for the monitor, for a notification, or for
nothing. -/
theorem userStep_eq_none (h : userStep s i = none) :
    s.monitor ≠ none ∧ (s.user i).locked = false ∨ s.user i = .idle ∨
      ∃ call, s.user i = .blocked call false := by
  have hlock : ∀ {pc}, s.lockUser i pc = none → s.monitor ≠ none := by
    intro pc hpc hfree
    simp [FutureImpl.lockUser, hfree] at hpc
  unfold userStep at h
  cases huser : s.user i with
  | idle => exact .inr (.inl rfl)
  | lock call | timedOut => rw [huser] at h; exact .inl ⟨hlock h, rfl⟩
  | blocked call notified =>
    cases notified with
    | false => exact .inr (.inr ⟨call, rfl⟩)
    | true => rw [huser] at h; exact .inl ⟨hlock h, rfl⟩
  | test call | cancelTestReady | cancelTestExecuting =>
    rw [huser] at h
    simp only at h
    split at h <;> cases h
  | leave call ready | read | cancelWrite => rw [huser] at h; cases h

/-- Where no user can move, and the task does not hold the monitor, nobody holds
it. -/
theorem free_of_users (hinv : FutureInv s) (hunlocked : s.task.locked = false)
    (husers : ∀ i, userStep s i = none) : s.monitor = none := by
  cases hmonitor : s.monitor with
  | none => rfl
  | some holder =>
    cases holder with
    | task =>
      have hlocked := hinv.taskLock.mpr hmonitor
      rw [hunlocked] at hlocked
      cases hlocked
    | user i =>
      have hlocked := (hinv.userLock i).mpr hmonitor
      obtain ⟨-, h⟩ | h | ⟨call, h⟩ := userStep_eq_none (husers i)
      all_goals rw [h] at hlocked; cases hlocked

/-- There each user has returned from its calls, or waits. -/
theorem users_wait (hinv : FutureInv s) (hunlocked : s.task.locked = false)
    (husers : ∀ i, userStep s i = none) (i : ι) :
    s.user i = .idle ∨ (∃ call, s.user i = .blocked call false) ∧ s.ready = false := by
  obtain ⟨hheld, -⟩ | hidle | ⟨call, hblocked⟩ := userStep_eq_none (husers i)
  · exact absurd (free_of_users hinv hunlocked husers) hheld
  · exact .inl hidle
  · -- the task has notified it before it left the monitor
    refine .inr ⟨⟨call, hblocked⟩, (hinv.asleep i call hblocked).resolve_right fun h => ?_⟩
    rw [h] at hunlocked
    cases hunlocked

/-- Where no thread can move, the task is over. -/
theorem stuck_over (hinv : FutureInv s) (hstuck : Stuck (step hasFunction) Act.ofThread s) :
    s.task = .done ∨ s.task = .threw ∨ s.task = .dropped := by
  obtain ⟨hheld, hunlocked⟩ | htask | hover := taskStep_eq_none (hstuck .task trivial)
  · exact absurd (free_of_users hinv hunlocked fun i => hstuck (.user i) trivial) hheld
  · -- the function could still throw
    have hthrows := hstuck .throws trivial
    simp [step, functionStep, htask] at hthrows
  · exact hover

/-- Why a future is not ready once its task is over. -/
theorem reason_of_over {executing : Bool}
    (hreach : Reachable (step hasFunction) (FutureImpl.init executing) s)
    (hready : s.ready = false) (hover : s.task = .done ∨ s.task = .threw ∨ s.task = .dropped) :
    s.task = .threw ∨ s.task = .dropped ∨
      s.task = .done ∧ (hasFunction = false ∨ s.isCancelled = true) := by
  obtain htask | htask | htask := hover
  · have hreason := reachable_reason hreach
    unfold Reason at hreason
    rw [htask] at hreason
    exact .inr (.inr ⟨htask, hreason.resolve_left (by simp [hready])⟩)
  · exact .inl htask
  · exact .inr (.inl htask)

/-- **Who waits for ever.** In every reachable state in which no thread can
take a step, each user has returned from its calls, or waits, without a
notification, for a future that is not ready; and then the function threw, the
task was dropped, the function is empty or the future was cancelled. -/
theorem stuck_waiters {executing : Bool}
    (hreach : Reachable (step hasFunction) (FutureImpl.init executing) s)
    (hstuck : Stuck (step hasFunction) Act.ofThread s) :
    ∀ i, s.user i = .idle ∨ (∃ call, s.user i = .blocked call false) ∧ s.ready = false ∧
      (s.task = .threw ∨ s.task = .dropped ∨
        s.task = .done ∧ (hasFunction = false ∨ s.isCancelled = true)) := by
  intro i
  have hinv := reachable_futureInv hreach
  have hover := stuck_over hinv hstuck
  have hunlocked : s.task.locked = false := by rcases hover with h | h | h <;> rw [h] <;> rfl
  refine (users_wait hinv hunlocked (fun j => hstuck (.user j) trivial) i).imp_right ?_
  rintro ⟨hblocked, hready⟩
  exact ⟨hblocked, hready, reason_of_over hreach hready hover⟩

/-- One user waits, and the pool drops the task. -/
def waitDropped : List (Act Nat Bool) :=
  [.call false (.wait .wait), .user false, .user false, .drop]

/-- The theorem where that run ends: the user waits for ever. -/
theorem stuck_waiters_dropped :
    ∃ s, run (step true) (FutureImpl.init true) waitDropped = some s ∧
      s.user false ≠ .idle ∧ s.ready = false := by
  have hrun : (run (step true) (FutureImpl.init true) waitDropped).map
      (fun s => (s.task, s.user false, s.user true))
        = some (.dropped, .blocked .wait false, .idle) := rfl
  obtain ⟨s, hs, hfields⟩ := Option.map_eq_some_iff.mp hrun
  obtain ⟨htask, hfields⟩ := Prod.mk.inj hfields
  obtain ⟨hwaits, hidle⟩ := Prod.mk.inj hfields
  have hstuck : Stuck (step true) Act.ofThread s := by
    intro a ha
    cases a with
    | task => simp [step, taskStep, htask]
    | returns r | throws => simp [step, functionStep, htask]
    | user i => cases i <;> simp [step, userStep, hwaits, hidle]
    | _ => exact ha.elim
  have hnot : s.user false ≠ .idle := by simp [hwaits]
  obtain ⟨-, hready, -⟩ := (stuck_waiters ⟨waitDropped, hs⟩ hstuck false).resolve_left hnot
  exact ⟨s, hs, hnot, hready⟩

/-! ## The initial content of `m_executing` -/

/-- The task may not have written `m_executing`. -/
def TaskPc.unset : TaskPc ρ → Bool
  | .scheduled | .testFunction | .setExecuting | .done | .dropped => true
  | _ => false

/-- Two states that differ at most in what nobody has written. -/
inductive Alike : FutureImpl ρ ι → FutureImpl ρ ι → Prop where
  | same (s : FutureImpl ρ ι) : Alike s s
  | unset {s : FutureImpl ρ ι} (executing : Bool) (hready : s.ready = false)
      (hunset : s.task.unset = true) : Alike s { s with executing := executing }

omit [DecidableEq ι] in
/-- The task of a future in which nobody has written `m_executing` does not
read it either. -/
theorem taskStep_unset (executing : Bool) (hready : s.ready = false)
    (hunset : s.task.unset = true) :
    Option.Rel Alike (taskStep hasFunction s)
      (taskStep hasFunction { s with executing := executing }) := by
  cases htask : s.task with
  | scheduled =>
    simp only [taskStep, htask]
    exact .some (.unset executing hready rfl)
  | testFunction =>
    simp only [taskStep, htask]
    split
    · exact .some (.unset executing hready rfl)
    · exact .some (.unset executing hready rfl)
  | setExecuting =>
    simp only [taskStep, htask]
    exact .some (.same _)
  | done | dropped =>
    simp only [taskStep, htask]
    exact .none
  | _ => rw [htask] at hunset; cases hunset

/-- And neither does a user: `cancel` looks at it only in a future that is
ready. -/
theorem userStep_unset (executing : Bool) (hinv : FutureInv s) (hready : s.ready = false)
    (hunset : s.task.unset = true) (i : ι) :
    userEvents { s with executing := executing } i = userEvents s i ∧
      Option.Rel Alike (userStep s i) (userStep { s with executing := executing } i) := by
  have hsaw := hinv.sawReady i
  have hmove : ∀ {monitor cancelled} (pc : UserPc), Option.Rel Alike
      (some { s.atUser i pc with monitor := monitor, isCancelled := cancelled })
      (some { s.atUser i pc with
        monitor := monitor, isCancelled := cancelled, executing := executing }) :=
    fun pc => .some (.unset executing hready hunset)
  cases huser : s.user i with
  | cancelTestExecuting =>
    rw [huser] at hsaw
    exact absurd (hsaw rfl) (by simp [hready])
  | lock call | timedOut =>
    simp only [userEvents, userStep, huser, FutureImpl.lockUser]
    refine ⟨trivial, ?_⟩
    cases s.monitor with
    | none => exact hmove _
    | some holder => exact .none
  | blocked call notified =>
    cases notified with
    | false => simp only [userEvents, userStep, huser]; exact ⟨trivial, .none⟩
    | true =>
      simp only [userEvents, userStep, huser, FutureImpl.lockUser]
      refine ⟨trivial, ?_⟩
      cases s.monitor with
      | none => exact hmove _
      | some holder => exact .none
  | idle => simp only [userEvents, userStep, huser]; exact ⟨trivial, .none⟩
  | test call | cancelTestReady =>
    have hnot : ¬s.ready = true := by simp [hready]
    simp only [userEvents, userStep, huser, if_neg hnot]
    exact ⟨trivial, hmove _⟩
  | leave call ready =>
    simp only [userEvents, userStep, huser]
    refine ⟨?_, hmove _⟩
    cases call <;> rfl
  | read | cancelWrite => simp only [userEvents, userStep, huser]; exact ⟨trivial, hmove _⟩

theorem step_alike (hasFunction : Bool) {t : FutureImpl ρ ι} (hinv : FutureInv s)
    (h : Alike s t) (a : Act ρ ι) :
    events t a = events s a ∧ Option.Rel Alike (step hasFunction s a) (step hasFunction t a) := by
  cases h with
  | same =>
    refine ⟨rfl, ?_⟩
    cases step hasFunction s a with
    | none => exact .none
    | some s' => exact .some (.same s')
  | unset executing hready hunset =>
    cases a with
    | task => exact ⟨rfl, taskStep_unset executing hready hunset⟩
    | user i => exact userStep_unset executing hinv hready hunset i
    | returns r | throws =>
      refine ⟨rfl, ?_⟩
      simp only [step, functionStep]
      cases htask : s.task with
      | calling => rw [htask] at hunset; cases hunset
      | _ => exact .none
    | drop =>
      refine ⟨rfl, ?_⟩
      simp only [step, dropStep]
      cases s.task with
      | scheduled => exact .some (.unset executing hready rfl)
      | _ => exact .none
    | call i call =>
      refine ⟨by cases call <;> rfl, ?_⟩
      simp only [step, callStep]
      cases s.user i with
      | idle => cases call <;> exact .some (.unset executing hready hunset)
      | _ => exact .none
    | timeout i =>
      refine ⟨rfl, ?_⟩
      simp only [step, timeoutStep]
      cases s.user i with
      | blocked call notified =>
        cases call with
        | timedWait => exact .some (.unset executing hready hunset)
        | _ => exact .none
      | _ => exact .none
    | spurious i => exact ⟨rfl, .some (.unset executing hready hunset)⟩

/-- What is left of a state without `m_executing`. -/
def FutureImpl.forget (s : FutureImpl ρ ι) : FutureImpl ρ ι := { s with executing := false }

omit [DecidableEq ι] in
theorem Alike.forget_eq {t : FutureImpl ρ ι} (h : Alike s t) : s.forget = t.forget := by
  cases h <;> rfl

theorem run_alike : ∀ (as : List (Act ρ ι)) {s t : FutureImpl ρ ι}, FutureInv s → Alike s t →
    history (step hasFunction) events s as = history (step hasFunction) events t as ∧
      (run (step hasFunction) s as).map FutureImpl.forget
        = (run (step hasFunction) t as).map FutureImpl.forget := by
  intro as
  induction as with
  | nil => exact fun _ h => ⟨rfl, congrArg some h.forget_eq⟩
  | cons a as ih =>
    intro s t hinv h
    obtain ⟨hevents, hrel⟩ := step_alike hasFunction hinv h a
    cases hs : step hasFunction s a with
    | none =>
      cases ht : step hasFunction t a with
      | none => simp only [history, run, hs, ht]; exact ⟨trivial, trivial⟩
      | some t' => rw [hs, ht] at hrel; cases hrel
    | some s' =>
      cases ht : step hasFunction t a with
      | none => rw [hs, ht] at hrel; cases hrel
      | some t' =>
        rw [hs, ht] at hrel
        have halike : Alike s' t' := by
          cases hrel with
          | some halike => exact halike
        obtain ⟨hhistory, hrun⟩ := ih (step_futureInv hinv hs) halike
        rw [history_cons _ as hs, history_cons _ as ht, hevents, hhistory]
        refine ⟨rfl, ?_⟩
        simp only [run, hs, ht]
        exact hrun

/-- **Nothing depends on the initial content of `m_executing`.** The same
actions are possible whatever it is, and they lead to the same history and to
the same state but for that field. -/
theorem initial_executing_unread (executing executing' : Bool) (as : List (Act ρ ι)) :
    futureHistory hasFunction executing as = futureHistory hasFunction executing' as ∧
      (run (step hasFunction) (FutureImpl.init executing) as).map FutureImpl.forget
        = (run (step hasFunction) (FutureImpl.init executing') as).map FutureImpl.forget :=
  run_alike as (futureInv_init executing) (.unset executing' rfl rfl)

end Satf.Future
