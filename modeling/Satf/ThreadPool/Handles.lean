import Satf.ThreadPool.Shutdown

/-!
# Handles and shutdown policies

`thread_pool` is a handle: copies of it share one `pool_core` and one shutdown
controller, a `shared_ptr` whose deleter runs the shutdown policy. So the thread
that destroys the last handle makes the calls of the policy, one after the
other. A `size_controller` shares the core alone, and may call `resize` at any
time.

A thread calls the pool through a handle of its own, and does not destroy it in
the middle of a call. Handles that a task holds are left out.

> `shutdown_settles`: once the policy's calls have returned, nothing is pending,
> no task starts any more, and with a policy that waits none is running.
-/

namespace Satf.ThreadPool

open Satf.Lib

variable {σ τ ι : Type}

/-! ## States and steps -/

/-- A pool, the thread of each handle to it, and once there is none, the thread
that shuts it down, with the calls it has still to make. -/
structure HandleState (σ τ ι : Type) where
  core : PoolState σ τ ι
  handles : List ι
  shutdown : Option (ι × List (Call τ))

/-- `thread_pool(initial_threads)` in thread `i`; `static_size::init` resizes the
pool. -/
def HandleState.init [DecidableEq ι] (policy : SchedulingPolicy σ τ) (i : ι)
    (initialThreads : Nat) : HandleState σ τ ι where
  core := (PoolState.init policy).atCaller i (.resize initialThreads)
  handles := [i]
  shutdown := none

def CallerPc.isIdle : CallerPc τ → Bool
  | .idle => true
  | _ => false

/-- The calls of a handle. -/
def Call.ofHandle : Call τ → Bool
  | .schedule _ | .clear | .wait _ | .timedWait _ => true
  | _ => false

def Act.isCall : Act τ ι → Bool
  | .call .. => true
  | _ => false

/-- Who moves: thread `i` copies a handle for thread `j`, destroys one, calls the
pool through one, or resizes it; the thread that shuts the pool down makes its
next call; or a call goes on. -/
inductive HandleAct (τ ι : Type) where
  | copy (i j : ι)
  | destroy (i : ι)
  | call (i : ι) (call : Call τ)
  | resize (i : ι) (workerCount : Nat)
  | next
  | core (a : Act τ ι)

section
variable [DecidableEq ι] (policy : SchedulingPolicy σ τ) (calls : List (Call τ))

/-- One step; `calls` are those of the shutdown policy. -/
def handleStep (s : HandleState σ τ ι) : HandleAct τ ι → Option (HandleState σ τ ι)
  | .copy i j =>
    if i ∈ s.handles ∧ (s.core.caller i).isIdle then some { s with handles := j :: s.handles }
    else none
  | .destroy i =>
    if i ∈ s.handles ∧ (s.core.caller i).isIdle then
      some { s with
        handles := s.handles.erase i
        shutdown := if s.handles.erase i = [] then some (i, calls) else none }
    else none
  | .call i call =>
    if i ∈ s.handles ∧ call.ofHandle then
      (step policy s.core (.call i call)).map fun core => { s with core := core }
    else none
  | .resize i workerCount =>
    (step policy s.core (.call i (.resize workerCount))).map fun core => { s with core := core }
  | .next =>
    match s.shutdown with
    | some (i, call :: calls) =>
      (step policy s.core (.call i call)).map fun core =>
        { s with core := core, shutdown := some (i, calls) }
    | _ => none
  | .core a =>
    if a.isCall then none
    else (step policy s.core a).map fun core => { s with core := core }

/-- What a step reports. -/
def handleEvents (s : HandleState σ τ ι) : HandleAct τ ι → List (Event τ)
  | .core a => events policy s.core a
  | _ => []

end

/-! ## The calls of a shutdown -/

/-- The caller is in a call that needs a handle, or is made by a shutdown. -/
def CallerPc.uses : CallerPc τ → Bool
  | .idle | .resize _ | .resizeStart _ | .resizing => false
  | _ => true

/-- The caller is in this call. -/
def Call.At : Call τ → CallerPc τ → Prop
  | .clear, .clear | .clear, .clearing => True
  | .wait k, .wait timed k' | .wait k, .waitTest timed k' | .wait k, .waitBlocked timed k' _ =>
    timed = false ∧ k' = k
  | .terminateAllWorkers join, .terminate join'
  | .terminateAllWorkers join, .terminating join' => join' = join
  | .terminateAllWorkers join, .terminateTest
  | .terminateAllWorkers join, .terminateBlocked _
  | .terminateAllWorkers join, .joining _ => join = true
  | _, _ => False

/-- A call that a shutdown may make. -/
def Call.ofShutdown : Call τ → Bool
  | .clear | .wait 0 | .terminateAllWorkers _ => true
  | _ => false

/-- What such a call leaves behind. -/
def Call.Done (policy : SchedulingPolicy σ τ) (s : PoolState σ τ ι) : Call τ → Prop
  | .clear => Hush policy s
  | .wait _ => Quiet policy s
  | .terminateAllWorkers _ => s.terminateAllWorkers = true
  | _ => True

section
variable [DecidableEq ι] {policy : SchedulingPolicy σ τ} {s s' : PoolState σ τ ι} {i j : ι}
  {a : Act τ ι} {es : List (Event τ)} {created : Bool} {w : Nat} {c : Call τ}

theorem step_flag (h : step policy s a = some s') (hflag : s.terminateAllWorkers = true) :
    s'.terminateAllWorkers = true := by
  obtain ⟨i, created, hmove, -⟩ | ⟨w, created, hmove, -⟩ | ⟨hmove, -⟩ := step_cases h
  · generalize events policy s a = es at hmove
    cases hmove with
    | terminateJoin | terminate => rfl
    | _ => exact hflag
  · generalize events policy s a = es at hmove
    cases hmove <;> exact hflag
  · cases hmove <;> exact hflag

/-- What a call has left behind stays, while nobody schedules. -/
theorem Call.Done.step (hdone : c.Done policy s) (ha : a.schedules = false)
    (h : step policy s a = some s') : c.Done policy s' := by
  cases c with
  | clear => exact (Hush.step hdone ha h).1
  | wait k => exact (Quiet.step hdone ha h).1
  | terminateAllWorkers join => exact step_flag h hdone
  | _ => trivial

theorem Call.at_start (h : c.ofShutdown = true) : c.At c.start := by
  cases c with
  | clear => trivial
  | wait k => exact ⟨rfl, rfl⟩
  | terminateAllWorkers join => exact rfl
  | _ => cases h

theorem Call.at_notified {pc : CallerPc τ} (h : c.At pc) : c.At pc.notified := by
  cases pc <;> first | exact h | (cases c <;> exact h)

theorem Call.At.not_idle {pc : CallerPc τ} (h : c.At pc) : pc ≠ .idle := by
  rintro rfl
  cases c <;> cases h

theorem Call.At.not_schedules {pc : CallerPc τ} (h : c.At pc) : pc.schedules = false := by
  cases pc with
  | schedule | scheduling => cases c <;> cases h
  | _ => rfl

theorem Call.at_afterLock {pc pc' : CallerPc τ} (h : c.At pc) (hlock : pc.afterLock = some pc') :
    c.At pc' := by
  cases pc with
  | waitBlocked timed threshold notified | terminateBlocked notified =>
    cases notified <;> cases hlock
    cases c <;> exact h
  | _ => cases hlock <;> cases c <;> exact h

/-- A call of a shutdown goes on, or has returned with what it leaves behind. -/
theorem CallerMove.shutdown (hreach : Reachable (step policy) (PoolState.init policy) s)
    (hnobody : ∀ j, (s.caller j).schedules = false) (hc : c.ofShutdown = true)
    (hat : c.At (s.caller i)) {chosen : Option Nat}
    (hstep : step policy s (.caller i chosen created) = some s')
    (h : CallerMove policy s i created s' es) :
    c.At (s'.caller i) ∨ s'.caller i = .idle ∧ c.Done policy s' := by
  have hself : ∀ pc : CallerPc τ, Function.update s.caller i pc i = pc :=
    fun pc => Function.update_self _ _ _
  cases h with
  | lock hlock =>
    left
    show c.At (Function.update s.caller i _ i)
    rw [hself]
    exact Call.at_afterLock hat hlock
  | refused hcaller | pushNotify hcaller | push hcaller | gaveUp hcaller | resizeRefused hcaller
  | resizeUp hcaller | resizeDown hcaller | create hcaller | resized hcaller =>
    rw [hcaller] at hat
    cases c <;> cases hat
  | cleared hcaller =>
    rw [hcaller] at hat
    cases c with
    | clear =>
      refine .inr ⟨hself _, policy.tasks_clear, ?_⟩
      exact forall_update (P := fun _ pc => pc.schedules = false) hnobody rfl
    | _ => cases hat
  | @waitBlock timed threshold hcaller =>
    left
    show c.At (Function.update s.caller i _ i)
    rw [hself]
    rw [hcaller] at hat
    cases c <;> exact hat
  | @waited timed threshold hcaller =>
    rw [hcaller] at hat
    cases c with
    | wait k =>
      obtain ⟨rfl, rfl⟩ := hat
      cases threshold with
      | zero =>
        refine .inr ⟨hself _, ?_⟩
        exact quiet_of_waited hreach hcaller hstep (hself _) hnobody
      | succ k => cases hc
    | _ => cases hat
  | terminateJoin hcaller =>
    left
    show c.At (Function.update s.caller i _ i)
    rw [hself]
    rw [hcaller] at hat
    cases c with
    | terminateAllWorkers join => exact hat.symm
    | _ => cases hat
  | terminate hcaller =>
    rw [hcaller] at hat
    cases c with
    | terminateAllWorkers join => exact .inr ⟨hself _, rfl⟩
    | _ => cases hat
  | terminateBlock hcaller | startJoin hcaller | join hcaller =>
    left
    show c.At (Function.update s.caller i _ i)
    rw [hself]
    rw [hcaller] at hat
    cases c <;> exact hat
  | joined hcaller =>
    have hflag := (reachable_endInv hreach).flag i (by rw [hcaller]; rfl)
    rw [hcaller] at hat
    cases c with
    | terminateAllWorkers join => exact .inr ⟨hself _, hflag⟩
    | _ => cases hat

theorem shutdown_step (hreach : Reachable (step policy) (PoolState.init policy) s)
    (hnobody : ∀ j, (s.caller j).schedules = false) (hc : c.ofShutdown = true)
    (hat : c.At (s.caller i)) (h : step policy s a = some s') :
    c.At (s'.caller i) ∨ s'.caller i = .idle ∧ c.Done policy s' := by
  obtain ⟨j, created, hmove, chosen, rfl⟩ | ⟨w, created, hmove, -⟩ | ⟨hmove, -⟩ := step_cases h
  · by_cases hj : i = j
    · subst hj
      exact hmove.shutdown hreach hnobody hc hat h
    · rw [hmove.frame hj]
      exact .inl hat
  · left
    generalize events policy s a = es at hmove
    cases hmove with
    | sleep | destructed | diedTerminating | replace => exact Call.at_notified hat
    | _ => exact hat
  · left
    cases hmove with
    | @call j hcaller call =>
      have hj : i ≠ j := by
        rintro rfl
        exact hat.not_idle hcaller
      show c.At (Function.update s.caller j _ i)
      rw [Function.update_of_ne hj]
      exact hat
    | @timeout j threshold notified hcaller =>
      have hj : i ≠ j := by
        rintro rfl
        rw [hcaller] at hat
        cases c <;> cases hat
        cases ‹_ = false›
      show c.At (Function.update s.caller j _ i)
      rw [Function.update_of_ne hj]
      exact hat
    | spuriousCaller j =>
      show c.At (Function.update s.caller j _ i)
      by_cases hj : i = j
      · subst hj
        rw [Function.update_self]
        exact Call.at_notified hat
      · rw [Function.update_of_ne hj]
        exact hat
    | spuriousWorker => exact hat

/-- A thread comes to use the pool with a call only. -/
theorem uses_step (ha : a.isCall = false) (h : step policy s a = some s')
    (huses : (s'.caller j).uses = true) : (s.caller j).uses = true := by
  have hnotified : ∀ pc : CallerPc τ, pc.notified.uses = pc.uses := fun pc => by cases pc <;> rfl
  obtain ⟨i, created, hmove, chosen, rfl⟩ | ⟨w, created, hmove, -⟩ | ⟨hmove, -⟩ := step_cases h
  · by_cases hj : j = i
    · subst hj
      have hself : ∀ pc : CallerPc τ, (Function.update s.caller j pc j).uses = true →
          pc.uses = true := fun pc h => by rw [Function.update_self] at h; exact h
      generalize events policy s _ = es at hmove
      cases hmove with
      | @lock pc hlock =>
        have hpc := hself _ huses
        cases hcaller : s.caller j <;> rw [hcaller] at hlock <;> first | rfl | cases hlock
        cases hpc
      | create => exact huses
      | resizeUp => cases hself _ huses
      | resizeRefused | resizeDown | resized | refused | pushNotify | push | cleared | waited
      | gaveUp | terminate | joined => cases hself _ huses
      | waitBlock hcaller | terminateJoin hcaller | terminateBlock hcaller | startJoin hcaller
      | join hcaller => rw [hcaller]; rfl
    · rw [hmove.frame hj] at huses
      exact huses
  · generalize events policy s a = es at hmove
    cases hmove with
    | sleep | destructed | diedTerminating | replace => exact (hnotified _).symm.trans huses
    | _ => exact huses
  · cases hmove with
    | call => cases ha
    | @timeout i threshold notified hcaller =>
      by_cases hj : j = i
      · rw [hj, hcaller]
        rfl
      · have hframe : (s.atCaller i .timedOut).caller j = s.caller j := Function.update_of_ne hj _ _
        rw [hframe] at huses
        exact huses
    | spuriousCaller i =>
      by_cases hj : j = i
      · subst hj
        have hself : (s.atCaller j (s.caller j).notified).caller j = (s.caller j).notified :=
          Function.update_self _ _ _
        rw [hself, hnotified] at huses
        exact huses
      · have hframe : (s.atCaller i (s.caller i).notified).caller j = s.caller j :=
          Function.update_of_ne hj _ _
        rw [hframe] at huses
        exact huses
    | spuriousWorker => exact huses

end

/-! ## Every run -/

section
variable [DecidableEq ι] {policy : SchedulingPolicy σ τ} {calls : List (Call τ)}
  {s s' : HandleState σ τ ι} {i j : ι} {n : Nat} {a : HandleAct τ ι}

/-- The calls made by the thread that shuts the pool down have returned, but for
the last one, which it may be in. -/
def Made (policy : SchedulingPolicy σ τ) (s : PoolState σ τ ι) (i : ι) (made : List (Call τ)) :
    Prop :=
  (s.caller i).uses = false ∧ (∀ c ∈ made, c.Done policy s) ∨
    ∃ earlier c, made = earlier ++ [c] ∧ c.At (s.caller i) ∧ ∀ c' ∈ earlier, c'.Done policy s

/-- The threads that use the pool have a handle, until the last one is gone and
one thread shuts the pool down. -/
structure HandleInv (policy : SchedulingPolicy σ τ) (calls : List (Call τ))
    (s : HandleState σ τ ι) : Prop where
  users : ∀ j, (s.core.caller j).uses = true →
    j ∈ s.handles ∨ ∃ rest, s.shutdown = some (j, rest)
  last : s.handles = [] ↔ s.shutdown ≠ none
  made : ∀ i rest, s.shutdown = some (i, rest) →
    ∃ made, calls = made ++ rest ∧ Made policy s.core i made

theorem handleInv_init (i : ι) (n : Nat) :
    HandleInv policy calls (HandleState.init policy i n) where
  users := by
    refine forall_update (P := fun j pc => pc.uses = true → _) (fun j hj => ?_) fun h => ?_
    · cases hj
    · cases h
  last := by simp [HandleState.init]
  made := fun i rest h => by cases h

theorem Call.At.uses {c : Call τ} {pc : CallerPc τ} (h : c.At pc) : pc.uses = true := by
  cases pc with
  | idle | resize | resizeStart | resizing => cases c <;> cases h
  | _ => rfl

omit [DecidableEq ι] in
/-- The thread that shuts the pool down is the only one that uses it. -/
theorem HandleInv.user (hinv : HandleInv policy calls s) {rest : List (Call τ)}
    (hshutdown : s.shutdown = some (i, rest)) (huses : (s.core.caller j).uses = true) : j = i := by
  rcases hinv.users j huses with hmem | ⟨rest', hrest'⟩
  · rw [hinv.last.mpr (by rw [hshutdown]; simp)] at hmem
    cases hmem
  · cases hshutdown.symm.trans hrest'
    rfl

omit [DecidableEq ι] in
/-- And it does not schedule. -/
theorem HandleInv.nobody (hinv : HandleInv policy calls s) {rest : List (Call τ)}
    (hshutdown : s.shutdown = some (i, rest)) (j : ι) : (s.core.caller j).schedules = false := by
  have hunused : (s.core.caller j).uses = false → (s.core.caller j).schedules = false := by
    cases s.core.caller j <;> first | exact fun _ => rfl | (intro h; cases h)
  refine (Bool.eq_false_or_eq_true _).elim (fun huses => ?_) hunused
  obtain rfl := hinv.user hshutdown huses
  -- it is in a call of its policy
  obtain ⟨made, -, ⟨hnot, -⟩ | ⟨earlier, c, -, hat, -⟩⟩ := hinv.made j rest hshutdown
  · rw [huses] at hnot
    cases hnot
  · exact hat.not_schedules

/-- A step of the pool that begins no call leaves the calls made as they are. -/
theorem Made.step {core : PoolState σ τ ι} {made : List (Call τ)} {b : Act τ ι}
    (hreach : Reachable (step policy) (PoolState.init policy) s.core)
    (hnobody : ∀ j, (s.core.caller j).schedules = false)
    (hcalls : ∀ c ∈ made, c.ofShutdown = true) (hb : b.schedules = false)
    (hmade : Made policy s.core i made) (h : ThreadPool.step policy s.core b = some core)
    (huses : (s.core.caller i).uses = false → (core.caller i).uses = false) :
    Made policy core i made := by
  rcases hmade with ⟨hnot, hdone⟩ | ⟨earlier, c, rfl, hat, hdone⟩
  · exact .inl ⟨huses hnot, fun c hc => (hdone c hc).step hb h⟩
  · have hearlier : ∀ c' ∈ earlier, c'.Done policy core := fun c' hc' => (hdone c' hc').step hb h
    have hc := hcalls c (List.mem_append_right _ (List.mem_singleton.mpr rfl))
    rcases shutdown_step hreach hnobody hc hat h with hat' | ⟨hidle, hdone'⟩
    · exact .inr ⟨earlier, c, rfl, hat', hearlier⟩
    · refine .inl ⟨by rw [hidle]; rfl, fun c' hc' => ?_⟩
      rcases List.mem_append.mp hc' with hc' | hc'
      · exact hearlier c' hc'
      · rw [List.mem_singleton.mp hc']
        exact hdone'

/-- Everything a step can do. -/
inductive HandleMove (policy : SchedulingPolicy σ τ) (calls : List (Call τ))
    (s : HandleState σ τ ι) : HandleAct τ ι → HandleState σ τ ι → Prop where
  | copy {u} (hu : u ∈ s.handles) (v : ι) :
      HandleMove policy calls s (.copy u v) { s with handles := v :: s.handles }
  | destroy {u} (hu : u ∈ s.handles) (hidle : s.core.caller u = .idle) :
      HandleMove policy calls s (.destroy u) { s with
        handles := s.handles.erase u
        shutdown := if s.handles.erase u = [] then some (u, calls) else none }
  | call {u c} (hu : u ∈ s.handles) (hc : c.ofHandle = true) (hidle : s.core.caller u = .idle) :
      HandleMove policy calls s (.call u c) { s with core := s.core.atCaller u c.start }
  | resize {u} (hidle : s.core.caller u = .idle) (k : Nat) :
      HandleMove policy calls s (.resize u k) { s with core := s.core.atCaller u (.resize k) }
  | next {u c rest} (hshutdown : s.shutdown = some (u, c :: rest))
      (hidle : s.core.caller u = .idle) :
      HandleMove policy calls s .next
        { s with core := s.core.atCaller u c.start, shutdown := some (u, rest) }
  | core {b core} (hb : b.isCall = false) (hcore : step policy s.core b = some core) :
      HandleMove policy calls s (.core b) { s with core := core }

theorem callStep_idle {s : PoolState σ τ ι} (call : Call τ) (h : s.caller i = .idle) :
    step policy s (.call i call) = some (s.atCaller i call.start) := by
  simp only [step, callStep, h]

theorem callStep_eq_some {s s' : PoolState σ τ ι} {call : Call τ}
    (h : step policy s (.call i call) = some s') :
    s.caller i = .idle ∧ s' = s.atCaller i call.start := by
  simp only [step, callStep] at h
  split at h
  next hidle => exact ⟨hidle, (Option.some.inj h).symm⟩
  next => cases h

theorem handleStep_move (h : handleStep policy calls s a = some s') :
    HandleMove policy calls s a s' := by
  cases a with
  | copy i j =>
    simp only [handleStep] at h
    split at h
    next hmay => cases h; exact .copy hmay.1 j
    next => cases h
  | destroy i =>
    simp only [handleStep] at h
    split at h
    next hmay =>
      cases h
      refine .destroy hmay.1 ?_
      have hidle := hmay.2
      cases hcaller : s.core.caller i <;> rw [hcaller] at hidle <;> first | rfl | cases hidle
    next => cases h
  | call i call =>
    simp only [handleStep] at h
    split at h
    next hmay =>
      obtain ⟨core, hcore, rfl⟩ := Option.map_eq_some_iff.mp h
      obtain ⟨hidle, rfl⟩ := callStep_eq_some hcore
      exact .call hmay.1 hmay.2 hidle
    next => cases h
  | resize i k =>
    obtain ⟨core, hcore, rfl⟩ := Option.map_eq_some_iff.mp h
    obtain ⟨hidle, rfl⟩ := callStep_eq_some hcore
    exact .resize hidle k
  | next =>
    simp only [handleStep] at h
    split at h
    next i call rest hshutdown =>
      obtain ⟨core, hcore, rfl⟩ := Option.map_eq_some_iff.mp h
      obtain ⟨hidle, rfl⟩ := callStep_eq_some hcore
      exact .next hshutdown hidle
    next => cases h
  | core b =>
    simp only [handleStep] at h
    split at h
    next => cases h
    next hb =>
      obtain ⟨core, hcore, rfl⟩ := Option.map_eq_some_iff.mp h
      exact .core (Bool.eq_false_iff.mpr hb) hcore

/-- A step is one of the pool or leaves it alone. -/
theorem HandleMove.pool (h : HandleMove policy calls s a s') :
    s'.core = s.core ∨ ∃ b, step policy s.core b = some s'.core := by
  cases h with
  | copy | destroy => exact .inl rfl
  | call hu hc hidle | next hshutdown hidle => exact .inr ⟨_, callStep_idle _ hidle⟩
  | resize hidle k => exact .inr ⟨_, callStep_idle (.resize k) hidle⟩
  | core hb hcore => exact .inr ⟨_, hcore⟩

/-- The pool's part of a run is a run of the pool. -/
theorem core_reachable (h : Reachable (handleStep policy calls) (HandleState.init policy i n) s) :
    Reachable (step policy) (PoolState.init policy) s.core := by
  refine @Reachable.invariant _ _ _ (fun s : HandleState σ τ ι =>
    Reachable (step policy) (PoolState.init policy) s.core) _ _ h ?_ ?_
  · exact ⟨[.call i (.resize n)], rfl⟩
  · intro s a s' hreach hstep
    rcases (handleStep_move hstep).pool with hsame | ⟨b, hb⟩
    · rw [hsame]
      exact hreach
    · exact hreach.step hb

omit [DecidableEq ι] in
theorem HandleInv.no_shutdown (hinv : HandleInv policy calls s) (hi : i ∈ s.handles) :
    s.shutdown = none := by
  by_contra hne
  rw [hinv.last.mpr hne] at hi
  cases hi

/-- Whoever is in a call keeps its handle. -/
theorem HandleInv.destroyed (hinv : HandleInv policy calls s) (hi : i ∈ s.handles)
    (hidle : s.core.caller i = .idle) :
    HandleInv policy calls { s with
      handles := s.handles.erase i
      shutdown := if s.handles.erase i = [] then some (i, calls) else none } := by
  have hnone := hinv.no_shutdown hi
  refine ⟨fun v hv => ?_, ?_, fun v rest hv => ?_⟩
  · have hne : v ≠ i := by
      rintro rfl
      rw [hidle] at hv
      cases hv
    rcases hinv.users v hv with hmem | ⟨rest, hrest⟩
    · exact .inl ((List.mem_erase_of_ne hne).mpr hmem)
    · rw [hnone] at hrest
      cases hrest
  · show s.handles.erase i = [] ↔ _
    split
    next hempty => simp [hempty]
    next hsome => simp [hsome]
  · have hv' : (if s.handles.erase i = [] then some (i, calls) else none) = some (v, rest) := hv
    split at hv'
    next =>
      cases hv'
      exact ⟨[], rfl, .inl ⟨by rw [hidle]; rfl, fun c hc => by cases hc⟩⟩
    next => cases hv'

/-- A call that a thread makes through its handle. -/
theorem HandleInv.called (hinv : HandleInv policy calls s) (hi : i ∈ s.handles) (c : Call τ) :
    HandleInv policy calls { s with core := s.core.atCaller i c.start } := by
  refine ⟨forall_update (P := fun v pc => pc.uses = true → v ∈ s.handles ∨ _) hinv.users
    fun _ => .inl hi, hinv.last, fun v rest hv => ?_⟩
  have hv' : s.shutdown = some (v, rest) := hv
  rw [hinv.no_shutdown hi] at hv'
  cases hv'

/-- The next call of a shutdown: those before it have returned. -/
theorem HandleInv.nextCall (hinv : HandleInv policy calls s)
    (hcalls : ∀ c ∈ calls, c.ofShutdown = true) {c : Call τ} {rest : List (Call τ)}
    (hshutdown : s.shutdown = some (i, c :: rest)) (hidle : s.core.caller i = .idle) :
    HandleInv policy calls
      { s with core := s.core.atCaller i c.start, shutdown := some (i, rest) } := by
  obtain ⟨made, hsplit, hmade⟩ := hinv.made i _ hshutdown
  have hc : c.ofShutdown = true := hcalls c (by rw [hsplit]; simp)
  have hschedules : (Act.call i c).schedules = false := by
    cases c with
    | schedule => cases hc
    | _ => rfl
  have hdone : ∀ c' ∈ made, c'.Done policy s.core := by
    rcases hmade with ⟨-, hdone⟩ | ⟨earlier, c', rfl, hat, -⟩
    · exact hdone
    · exact absurd hidle hat.not_idle
  refine ⟨?_, ?_, fun v rest' hv => ?_⟩
  · refine forall_update (P := fun v pc => pc.uses = true → v ∈ s.handles ∨ _) (fun v hv => ?_)
      fun _ => .inr ⟨rest, rfl⟩
    obtain rfl := hinv.user hshutdown hv
    exact .inr ⟨rest, rfl⟩
  · have hempty := hinv.last.mpr (by rw [hshutdown]; simp)
    simp [hempty]
  · cases hv
    refine ⟨made ++ [c], by rw [hsplit]; simp, .inr ⟨made, c, rfl, ?_, fun c' hc' => ?_⟩⟩
    · show c.At (Function.update s.core.caller i _ i)
      rw [Function.update_self]
      exact Call.at_start hc
    · exact (hdone c' hc').step hschedules (callStep_idle c hidle)

/-- A step of the pool that brings nobody to use it. -/
theorem HandleInv.moved (hinv : HandleInv policy calls s)
    (hcalls : ∀ c ∈ calls, c.ofShutdown = true)
    (hreach : Reachable (step policy) (PoolState.init policy) s.core) {b : Act τ ι}
    {core : PoolState σ τ ι} (hb : b.schedules = false) (hcore : step policy s.core b = some core)
    (huses : ∀ j, (core.caller j).uses = true → (s.core.caller j).uses = true) :
    HandleInv policy calls { s with core := core } := by
  refine ⟨fun v hv => hinv.users v (huses v hv), hinv.last, fun v rest hv => ?_⟩
  obtain ⟨made, hsplit, hmade⟩ := hinv.made v rest hv
  have hpart : ∀ c ∈ made, c.ofShutdown = true :=
    fun c hc => hcalls c (by rw [hsplit]; exact List.mem_append_left _ hc)
  refine ⟨made, hsplit, hmade.step hreach (hinv.nobody hv) hpart hb hcore fun hunused => ?_⟩
  exact Bool.eq_false_iff.mpr fun h => Bool.eq_false_iff.mp hunused (huses v h)

omit [DecidableEq ι] in
theorem schedules_of_isCall {b : Act τ ι} (hb : b.isCall = false) : b.schedules = false := by
  cases b with
  | call => cases hb
  | _ => rfl

theorem HandleMove.handleInv (h : HandleMove policy calls s a s')
    (hcalls : ∀ c ∈ calls, c.ofShutdown = true)
    (hreach : Reachable (step policy) (PoolState.init policy) s.core)
    (hinv : HandleInv policy calls s) : HandleInv policy calls s' := by
  cases h with
  | copy hu v =>
    have hnone := hinv.no_shutdown hu
    refine ⟨fun v hv => (hinv.users v hv).imp_left (List.mem_cons_of_mem _), ?_, hinv.made⟩
    simp [hnone]
  | destroy hu hidle => exact hinv.destroyed hu hidle
  | call hu hc hidle => exact hinv.called hu _
  | resize hidle k =>
    refine hinv.moved hcalls hreach rfl (callStep_idle (.resize k) hidle) ?_
    exact forall_update (P := fun v pc => pc.uses = true → (s.core.caller v).uses = true)
      (fun _ => id) fun h => by cases h
  | next hshutdown hidle => exact hinv.nextCall hcalls hshutdown hidle
  | core hb hcore =>
    exact hinv.moved hcalls hreach (schedules_of_isCall hb) hcore fun _ => uses_step hb hcore

theorem reachable_handleInv (hcalls : ∀ c ∈ calls, c.ofShutdown = true)
    (h : Reachable (handleStep policy calls) (HandleState.init policy i n) s) :
    HandleInv policy calls s :=
  h.invariant_along (handleInv_init i n) fun _ _ _ hreach hinv hstep =>
    (handleStep_move hstep).handleInv hcalls (core_reachable hreach) hinv

/-! ## What a shutdown guarantees -/

/-- The shutdown policies. -/
def shutdownPolicies : List (List (Call τ)) := [waitForAllTasks, waitForActiveTasks, immediately]

theorem ofShutdown_of_mem (hcalls : calls ∈ shutdownPolicies) :
    ∀ c ∈ calls, c.ofShutdown = true := by
  intro c hc
  simp only [shutdownPolicies, waitForAllTasks, waitForActiveTasks, immediately, List.mem_cons,
    List.not_mem_nil, or_false] at hcalls
  rcases hcalls with rfl | rfl | rfl <;> simp only [List.mem_cons, List.not_mem_nil, or_false] at hc
  · rcases hc with rfl | rfl <;> rfl
  · rcases hc with rfl | rfl | rfl <;> rfl
  · rcases hc with rfl | rfl <;> rfl

omit [DecidableEq ι] in
/-- After the last call has returned, all of them have left behind what they
leave. -/
theorem HandleInv.all_done (hinv : HandleInv policy calls s) (hdone : s.shutdown = some (i, []))
    (hreturned : (s.core.caller i).uses = false) : ∀ c ∈ calls, c.Done policy s.core := by
  obtain ⟨made, hsplit, ⟨-, hall⟩ | ⟨earlier, c, -, hat, -⟩⟩ := hinv.made i [] hdone
  · rw [hsplit, List.append_nil]
    exact hall
  · rw [hat.uses] at hreturned
    cases hreturned

omit [DecidableEq ι] in
/-- Each policy clears the scheduler or waits for it, and terminates the
workers. -/
theorem settled_of_done (hcalls : calls ∈ shutdownPolicies) {core : PoolState σ τ ι}
    (hall : ∀ c ∈ calls, c.Done policy core) :
    core.terminateAllWorkers = true ∧ Hush policy core ∧
      (calls ≠ immediately → Quiet policy core) := by
  simp only [shutdownPolicies, List.mem_cons, List.not_mem_nil, or_false] at hcalls
  rcases hcalls with rfl | rfl | rfl
  · have hquiet : Quiet policy core := hall (.wait 0) (by simp [waitForAllTasks])
    exact ⟨hall (.terminateAllWorkers true) (by simp [waitForAllTasks]), hquiet.toHush,
      fun _ => hquiet⟩
  · have hquiet : Quiet policy core := hall (.wait 0) (by simp [waitForActiveTasks])
    exact ⟨hall (.terminateAllWorkers true) (by simp [waitForActiveTasks]), hquiet.toHush,
      fun _ => hquiet⟩
  · exact ⟨hall (.terminateAllWorkers false) (by simp [immediately]),
      hall .clear (by simp [immediately]), fun hne => absurd rfl hne⟩

/-- No handle comes back, and no call is made after the last one. -/
theorem HandleMove.stays (h : HandleMove policy calls s a s') (hempty : s.handles = [])
    (hdone : s.shutdown = some (j, [])) :
    s'.handles = [] ∧ s'.shutdown = some (j, []) ∧
      ∃ b, b.schedules = false ∧ step policy s.core b = some s'.core ∧
        handleEvents policy s a = events policy s.core b := by
  have hnone : ∀ {i}, i ∉ s.handles := by rw [hempty]; exact List.not_mem_nil
  cases h with
  | copy hu | destroy hu | call hu => exact absurd hu hnone
  | next hshutdown => cases hdone.symm.trans hshutdown
  | resize hidle k =>
    exact ⟨hempty, hdone, _, rfl, callStep_idle (.resize k) hidle, rfl⟩
  | core hb hcore => exact ⟨hempty, hdone, _, schedules_of_isCall hb, hcore, rfl⟩

/-- **What a shutdown guarantees.** With any of the three shutdown policies, in
every run: when the calls that the last handle's destructor makes have returned,
the flag is set, no task is pending, and with the policies that wait none is
running; and in every continuation no task is started. -/
theorem shutdown_settles (hcalls : calls ∈ shutdownPolicies)
    (hreach : Reachable (handleStep policy calls) (HandleState.init policy i n) s)
    (hdone : s.shutdown = some (j, [])) (hreturned : (s.core.caller j).uses = false) :
    s.core.terminateAllWorkers = true ∧ policy.tasks s.core.scheduler = 0 ∧
      (calls ≠ immediately →
        ∀ (w : Nat) (pc : WorkerPc τ), s.core.workers[w]? = some pc → pc.isRunning = false) ∧
      ∀ (bs : List (HandleAct τ ι)) (t : HandleState σ τ ι),
        run (handleStep policy calls) s bs = some t →
        starts (history (handleStep policy calls) (handleEvents policy) s bs) = [] := by
  have hofshutdown := ofShutdown_of_mem hcalls
  have hinv := reachable_handleInv hofshutdown hreach
  obtain ⟨hset, hush, hquiet⟩ := settled_of_done hcalls (hinv.all_done hdone hreturned)
  refine ⟨hset, hush.tasks, fun hne => (hquiet hne).worker, fun bs t hrun => ?_⟩
  have hempty := hinv.last.mpr (by rw [hdone]; simp)
  refine (@history_invariant _ _ _ (handleStep policy calls) (handleEvents policy) s
    (fun s h => (s.handles = [] ∧ s.shutdown = some (j, []) ∧ Hush policy s.core) ∧ starts h = [])
    ⟨⟨hempty, hdone, hush⟩, rfl⟩ ?_ bs t hrun).2
  rintro s h a s' - ⟨⟨hempty, hdone, hush⟩, hnone⟩ hstep
  obtain ⟨hempty', hdone', b, hschedules, hcore, hevents⟩ :=
    (handleStep_move hstep).stays hempty hdone
  obtain ⟨hush', hnone'⟩ := hush.step hschedules hcore
  exact ⟨⟨hempty', hdone', hush'⟩, by rw [starts_append, hnone, hevents, hnone']; rfl⟩

end

/-- A pool of one worker with two handles, one of which schedules a task; then
both are destroyed. -/
def twoHandlesRun : List (HandleAct Nat Bool) :=
  let first := .core (.caller false none true)
  let second := .core (.caller true none true)
  let worker := .core (.worker 0 true)
  List.replicate 4 first ++ [.copy false true, .destroy false] ++
    [.call true (.schedule 7), second, second] ++ List.replicate 7 worker ++
    [.destroy true, .next, second, second, .next, second, second, second, second] ++
    List.replicate 5 worker

/-- The theorem where that run ends. -/
theorem shutdown_settles_two_handles :
    ∃ s : HandleState (List Nat) Nat Bool,
      run (handleStep fifoScheduler waitForAllTasks) (HandleState.init fifoScheduler false 1)
        twoHandlesRun = some s ∧
      s.core.terminateAllWorkers = true ∧ fifoScheduler.tasks s.core.scheduler = 0 ∧
      ∀ (bs : List (HandleAct Nat Bool)) (t : HandleState (List Nat) Nat Bool),
        run (handleStep fifoScheduler waitForAllTasks) s bs = some t →
        starts (history (handleStep fifoScheduler waitForAllTasks) (handleEvents fifoScheduler)
          s bs) = [] := by
  have hrun : (run (handleStep fifoScheduler waitForAllTasks)
      (HandleState.init fifoScheduler false 1) twoHandlesRun).map
      (fun s => (s.shutdown, s.core.caller true)) = some (some (true, []), .idle) := rfl
  obtain ⟨s, hs, hfields⟩ := Option.map_eq_some_iff.mp hrun
  obtain ⟨hdone, hidle⟩ := Prod.mk.inj hfields
  obtain ⟨hflag, htasks, -, hnone⟩ := shutdown_settles List.mem_cons_self ⟨_, hs⟩ hdone
    (by rw [hidle]; rfl)
  exact ⟨s, hs, hflag, htasks, hnone⟩

end Satf.ThreadPool
