import Satf.ThreadPool.Tasks

/-!
# In which order tasks start

Which of the pending tasks a worker takes is up to the scheduling policy. What
a policy does is stated of the history alone, so that it says something about
the pool with its threads and not about the container.

A `Discipline` ties a rule for the tasks that start to what the container looks
like after a history. It is checked against the operations of a policy, and
then every run of the pool keeps the rule (`Discipline.startsBy`).

> `starts_in_order`: with `fifo_scheduler` exactly the tasks scheduled before
> it have gone when a task starts; with `lifo_scheduler` exactly those
> scheduled since, as with nested brackets; with `prio_scheduler`, however its
> queue orders tasks of one priority, none that waits has a higher one.
-/

namespace Satf.ThreadPool

open Satf.Lib

variable {σ τ ι : Type} {policy : SchedulingPolicy σ τ} {h : List (Event τ)}

/-! ## Rules about histories -/

/-- The tasks that have left the scheduler, started or dropped. -/
def gone (h : List (Event τ)) : Multiset τ := (starts h).map Prod.snd + droppedOf h

/-- Whenever a task is started, what came before meets the rule. -/
def StartsBy (rule : List (Event τ) → τ → Prop) (h : List (Event τ)) : Prop :=
  ∀ before w task after, h = before ++ .started w task :: after → rule before task

/-- Exactly the tasks scheduled before this one have gone. -/
def Oldest (before : List (Event τ)) (task : τ) : Prop :=
  ∃ b c, before = b ++ .scheduled task :: c ∧ gone before = scheduledOf b

/-- What is scheduled in `h` has been started in it, and nothing is dropped. -/
structure Closed (h : List (Event τ)) : Prop where
  kept : ∀ dropped, .cleared dropped ∉ h
  gone : gone h = scheduledOf h

/-- The tasks scheduled after this one have been started since. -/
def Newest (before : List (Event τ)) (task : τ) : Prop :=
  ∃ b c, before = b ++ .scheduled task :: c ∧ Closed c

/-- No task that waits has a higher priority. -/
def Highest (before : List (Event (PrioTaskFunc τ))) (task : PrioTaskFunc τ) : Prop :=
  ∃ waiting, scheduledOf before = gone before + waiting ∧ task ∈ waiting ∧
    ∀ u ∈ waiting, task.lt u = false

@[simp] theorem scheduledOf_append (h h' : List (Event τ)) :
    scheduledOf (h ++ h') = scheduledOf h + scheduledOf h' := by
  simp [scheduledOf]

@[simp] theorem gone_append (h h' : List (Event τ)) : gone (h ++ h') = gone h + gone h' := by
  unfold gone droppedOf
  rw [starts_append, List.map_append, List.map_append, List.sum_append, ← Multiset.coe_add]
  exact add_add_add_comm _ _ _ _

/-- The events that neither schedule a task nor take one away. -/
def Event.isEnd : Event τ → Bool
  | .finished _ _ | .threw _ _ => true
  | _ => false

theorem scheduledOf_end {e : Event τ} (he : e.isEnd = true) : scheduledOf [e] = 0 := by
  cases e with
  | finished | threw => rfl
  | _ => cases he

theorem gone_end {e : Event τ} (he : e.isEnd = true) : gone [e] = 0 := by
  cases e with
  | finished | threw => rfl
  | _ => cases he

theorem scheduledOf_cons (e : Event τ) (h : List (Event τ)) :
    scheduledOf (e :: h) = scheduledOf [e] + scheduledOf h := by
  rw [← List.singleton_append, scheduledOf_append]

theorem gone_cons (e : Event τ) (h : List (Event τ)) : gone (e :: h) = gone [e] + gone h := by
  rw [← List.singleton_append, gone_append]

@[simp] theorem scheduledOf_scheduled (task : τ) : scheduledOf [.scheduled task] = {task} := by
  simp [scheduledOf]

@[simp] theorem gone_scheduled (task : τ) : gone [.scheduled task] = 0 := rfl

@[simp] theorem scheduledOf_started (w : Nat) (task : τ) : scheduledOf [.started w task] = 0 := rfl

@[simp] theorem gone_started (w : Nat) (task : τ) : gone [.started w task] = {task} := rfl

@[simp] theorem scheduledOf_cleared (dropped : Multiset τ) :
    scheduledOf [Event.cleared dropped] = 0 := rfl

@[simp] theorem gone_cleared (dropped : Multiset τ) : gone [.cleared dropped] = dropped := by
  simp [gone, starts, droppedOf]

/-- An event is added to a history. -/
theorem StartsBy.append {rule : List (Event τ) → τ → Prop} {e : Event τ} (hstarts : StartsBy rule h)
    (he : ∀ w task, e = .started w task → rule h task) : StartsBy rule (h ++ [e]) := by
  intro before w task after heq
  rcases List.eq_nil_or_concat after with rfl | ⟨after', e', rfl⟩
  · obtain ⟨rfl, hlast⟩ := List.append_inj' heq rfl
    exact he w task (List.cons.inj hlast).1
  · have hsplit : h ++ [e] = (before ++ .started w task :: after') ++ [e'] := by
      rw [heq, List.append_assoc, List.cons_append, List.concat_eq_append]
    exact hstarts before w task after' (List.append_inj' hsplit rfl).1

/-! ## What a step does to the scheduler -/

/-- Everything a step of the pool does to the scheduler, with what it reports. -/
inductive SchedulerMove (policy : SchedulingPolicy σ τ) (c : σ) : σ → List (Event τ) → Prop where
  | same : SchedulerMove policy c c []
  | push {task c'} (hpush : policy.push c task = some c') :
      SchedulerMove policy c c' [.scheduled task]
  | clear : SchedulerMove policy c policy.clear [.cleared (policy.tasks c)]
  | pop {w task} (hsome : policy.empty c = false) (htop : policy.top c = some task) :
      SchedulerMove policy c (policy.pop c) [.started w task]
  | ended {e} (he : e.isEnd = true) : SchedulerMove policy c c [e]

variable [DecidableEq ι] {s s' : PoolState σ τ ι}

theorem step_schedulerMove {a : Act τ ι} (hstep : step policy s a = some s') :
    SchedulerMove policy s.scheduler s'.scheduler (events policy s a) := by
  obtain ⟨i, created, hmove, -⟩ | ⟨w, created, hmove, -⟩ | ⟨hmove, hnone⟩ := step_cases hstep
  · generalize events policy s a = es at hmove
    cases hmove with
    | push hcaller hpush => exact .push hpush
    | pushNotify hcaller hpush hasleep => exact .push hpush
    | cleared => exact .clear
    | _ => exact .same
  · generalize events policy s a = es at hmove
    cases hmove with
    | take hw hsome htop => exact .pop hsome htop
    | returned | threw => exact .ended rfl
    | _ => exact .same
  · rw [hnone]
    cases hmove with
    | _ => exact .same

/-! ## Disciplines -/

/-- After every history the container has this shape, and a task that it gives
away meets the rule. -/
structure Discipline (policy : SchedulingPolicy σ τ) (shape : List (Event τ) → σ → Prop)
    (rule : List (Event τ) → τ → Prop) : Prop where
  init : shape [] policy.clear
  push : ∀ {h c task c'}, shape h c → policy.push c task = some c' →
    shape (h ++ [.scheduled task]) c'
  clear : ∀ {h c}, shape h c → shape (h ++ [.cleared (policy.tasks c)]) policy.clear
  pop : ∀ {h c w task}, shape h c → policy.empty c = false → policy.top c = some task →
    rule h task ∧ shape (h ++ [.started w task]) (policy.pop c)
  ended : ∀ {h c e}, shape h c → e.isEnd = true → shape (h ++ [e]) c

variable {shape : List (Event τ) → σ → Prop} {rule : List (Event τ) → τ → Prop}

omit [DecidableEq ι] in
theorem Discipline.keeps {c c' : σ} {es : List (Event τ)} (hd : Discipline policy shape rule)
    (hmove : SchedulerMove policy c c' es) (hshape : shape h c) (hstarts : StartsBy rule h) :
    shape (h ++ es) c' ∧ StartsBy rule (h ++ es) := by
  cases hmove with
  | same => rw [List.append_nil]; exact ⟨hshape, hstarts⟩
  | push hpush => exact ⟨hd.push hshape hpush, hstarts.append fun _ _ h => by cases h⟩
  | clear => exact ⟨hd.clear hshape, hstarts.append fun _ _ h => by cases h⟩
  | pop hsome htop =>
    obtain ⟨hrule, hnext⟩ := hd.pop hshape hsome htop
    exact ⟨hnext, hstarts.append fun _ _ h => by cases h; exact hrule⟩
  | ended he =>
    exact ⟨hd.ended hshape he, hstarts.append fun _ _ h => by subst h; cases he⟩

/-- A rule checked against the policy holds in every run of the pool. -/
theorem Discipline.startsBy {as : List (Act τ ι)} (hd : Discipline policy shape rule)
    (hrun : run (step policy) (PoolState.init policy) as = some s) :
    StartsBy rule (poolHistory policy as) := by
  have hinit : StartsBy rule ([] : List (Event τ)) := by
    intro before w task after heq
    cases before <;> cases heq
  refine (@history_invariant _ _ _ _ (events policy) _
    (fun s h => shape h s.scheduler ∧ StartsBy rule h) ⟨hd.init, hinit⟩ ?_ as s hrun).2
  intro s h a s' _ hinv hstep
  exact hd.keeps (step_schedulerMove hstep) hinv.1 hinv.2

/-! ## First in, first out -/

/-- The tasks scheduled, in order. -/
def pushes (h : List (Event τ)) : List τ :=
  h.filterMap fun
    | .scheduled task => some task
    | _ => none

theorem pushes_append (h h' : List (Event τ)) : pushes (h ++ h') = pushes h ++ pushes h' :=
  List.filterMap_append

theorem scheduledOf_eq (h : List (Event τ)) : scheduledOf h = pushes h := by
  induction h with
  | nil => rfl
  | cons e h ih =>
    rw [scheduledOf_cons, ih]
    cases e with
    | scheduled task => rw [scheduledOf_scheduled]; rfl
    | _ => exact zero_add _

/-- The tasks scheduled are those that have gone, and then those that wait. -/
def FifoShape (h : List (Event τ)) (c : List τ) : Prop :=
  ∃ past, pushes h = past ++ c ∧ gone h = past

/-- The event that scheduled the first task that waits. -/
theorem FifoShape.oldest {c : List τ} {task : τ} (hshape : FifoShape h (task :: c)) :
    Oldest h task := by
  obtain ⟨past, hpushes, hgone⟩ := hshape
  obtain ⟨b, b', rfl, hb, hb'⟩ := List.filterMap_eq_append_iff.mp hpushes
  obtain ⟨d, e, d', rfl, hd, he, -⟩ := List.filterMap_eq_cons_iff.mp hb'
  cases e with
  | scheduled task' =>
    cases he
    refine ⟨b ++ d, d', by rw [List.append_assoc], ?_⟩
    have hnone : pushes d = [] := List.filterMap_eq_nil_iff.mpr hd
    rw [hgone, scheduledOf_eq, pushes_append, hnone, List.append_nil, ← hb]
    rfl
  | _ => cases he

theorem fifo_discipline :
    Discipline (fifoScheduler : SchedulingPolicy (List τ) τ) FifoShape Oldest where
  init := ⟨[], rfl, rfl⟩
  push := by
    rintro h c task c' ⟨past, hpushes, hgone⟩ hpush
    cases hpush
    refine ⟨past, ?_, ?_⟩
    · rw [pushes_append, hpushes, List.append_assoc]
      rfl
    · rw [gone_append, hgone, gone_scheduled, add_zero]
  clear := by
    rintro h c ⟨past, hpushes, hgone⟩
    refine ⟨past ++ c, ?_, ?_⟩
    · rw [pushes_append, hpushes]
      rfl
    · rw [gone_append, hgone, gone_cleared, ← Multiset.coe_add]
      rfl
  pop := by
    intro h c w task hshape hsome htop
    cases c with
    | nil => cases htop
    | cons t c =>
      cases htop
      refine ⟨hshape.oldest, ?_⟩
      obtain ⟨past, hpushes, hgone⟩ := hshape
      refine ⟨past ++ [task], ?_, ?_⟩
      · rw [pushes_append, hpushes, List.append_assoc, List.append_assoc]
        show past ++ (task :: c ++ []) = _
        rw [List.append_nil]
        rfl
      · rw [gone_append, hgone, gone_started, ← Multiset.coe_add]
        rfl
  ended := by
    rintro h c e ⟨past, hpushes, hgone⟩ he
    have hnone : pushes [e] = [] := by
      cases e with
      | finished | threw => rfl
      | _ => cases he
    exact ⟨past, by rw [pushes_append, hnone, List.append_nil, hpushes],
      by rw [gone_append, gone_end he, add_zero, hgone]⟩

/-! ## Last in, first out -/

theorem Closed.nil : Closed ([] : List (Event τ)) := ⟨fun _ => List.not_mem_nil, rfl⟩

theorem Closed.append {h' : List (Event τ)} (hh : Closed h) (hh' : Closed h') :
    Closed (h ++ h') where
  kept := by
    intro dropped hmem
    rcases List.mem_append.mp hmem with hmem | hmem
    · exact hh.kept dropped hmem
    · exact hh'.kept dropped hmem
  gone := by rw [gone_append, scheduledOf_append, hh.gone, hh'.gone]

theorem Closed.ended {e : Event τ} (he : e.isEnd = true) : Closed [e] where
  kept := by
    intro dropped hmem
    cases List.mem_singleton.mp hmem
    cases he
  gone := by rw [gone_end he, scheduledOf_end he]

/-- A task is scheduled, what follows is closed, and the task is started. -/
theorem Closed.enclose {task : τ} {w : Nat} (hh : Closed h) :
    Closed (.scheduled task :: h ++ [.started w task]) where
  kept := by
    intro dropped hmem
    rcases List.mem_append.mp hmem with hmem | hmem
    · rcases List.mem_cons.mp hmem with hmem | hmem
      · cases hmem
      · exact hh.kept dropped hmem
    · cases List.mem_singleton.mp hmem
  gone := by
    rw [gone_append, scheduledOf_append, gone_cons, scheduledOf_cons, hh.gone, gone_scheduled,
      scheduledOf_scheduled, gone_started, scheduledOf_started, zero_add, add_zero, add_comm]

/-- Each task that waits, from the one scheduled last: what came after it is
closed, up to the next one. -/
inductive LifoShape : List (Event τ) → List τ → Prop where
  | nil (b : List (Event τ)) : LifoShape b []
  | cons {b c task ts} (hrest : LifoShape b ts) (hclosed : Closed c) :
      LifoShape (b ++ .scheduled task :: c) (task :: ts)

theorem LifoShape.append {ts : List τ} {c : List (Event τ)} (hshape : LifoShape h ts)
    (hclosed : Closed c) : LifoShape (h ++ c) ts := by
  cases hshape with
  | nil => exact .nil _
  | cons hrest hclosed' =>
    rw [List.append_assoc, List.cons_append]
    exact .cons hrest (hclosed'.append hclosed)

theorem lifo_discipline :
    Discipline (lifoScheduler : SchedulingPolicy (List τ) τ) LifoShape Newest where
  init := .nil _
  push := by
    intro h c task c' hshape hpush
    cases hpush
    exact .cons hshape .nil
  clear := fun _ => .nil _
  pop := by
    intro h c w task hshape hsome htop
    cases hshape with
    | nil => cases htop
    | @cons b d t ts hrest hclosed =>
      cases htop
      refine ⟨⟨b, d, rfl, hclosed⟩, ?_⟩
      rw [List.append_assoc]
      exact hrest.append hclosed.enclose
  ended := fun hshape he => hshape.append (.ended he)

/-! ## By priority -/

/-- What has been scheduled has gone or is in the container. -/
def Waits (policy : SchedulingPolicy σ τ) (h : List (Event τ)) (c : σ) : Prop :=
  scheduledOf h = gone h + policy.tasks c

/-- Every policy keeps what waits in its container. So a rule can rest on that. -/
theorem waits_discipline
    (hrule : ∀ {h c task}, Waits policy h c → task ∈ policy.tasks c → policy.top c = some task →
      rule h task) :
    Discipline policy (Waits policy) rule where
  init := by
    unfold Waits
    rw [policy.tasks_clear]
    rfl
  push := by
    intro h c task c' hshape hpush
    unfold Waits at hshape ⊢
    rw [policy.tasks_push hpush, scheduledOf_append, gone_append, hshape, scheduledOf_scheduled,
      gone_scheduled, add_zero, ← Multiset.singleton_add, add_assoc,
      add_comm (policy.tasks c)]
  clear := by
    intro h c hshape
    unfold Waits at hshape ⊢
    rw [policy.tasks_clear, scheduledOf_append, gone_append, hshape, scheduledOf_cleared,
      gone_cleared]
  pop := by
    intro h c w task hshape hsome htop
    obtain ⟨t, ht, htasks⟩ := policy.tasks_pop hsome
    cases htop.symm.trans ht
    refine ⟨hrule hshape (by rw [htasks]; exact Multiset.mem_cons_self _ _) htop, ?_⟩
    unfold Waits at hshape ⊢
    rw [scheduledOf_append, gone_append, hshape, htasks, scheduledOf_started, gone_started,
      add_zero, ← Multiset.singleton_add, add_assoc]
  ended := by
    intro h c e hshape he
    unfold Waits at hshape ⊢
    rw [scheduledOf_append, gone_append, scheduledOf_end he, gone_end he, add_zero, add_zero]
    exact hshape

theorem prio_discipline {policy : SchedulingPolicy σ (PrioTaskFunc τ)}
    (hprio : policy.Prioritized) : Discipline policy (Waits policy) Highest :=
  waits_discipline fun {_ c task} hshape hmem htop =>
    ⟨policy.tasks c, hshape, hmem, hprio c task htop⟩

/-- Of two tasks started with none scheduled in between, the first does not
have the lower priority. -/
def Descending (h : List (Event (PrioTaskFunc τ))) : Prop :=
  ∀ a v t b w u c, h = a ++ .started v t :: b ++ .started w u :: c → scheduledOf b = 0 →
    t.lt u = false

theorem StartsBy.descending {h : List (Event (PrioTaskFunc τ))} (hstarts : StartsBy Highest h) :
    Descending h := by
  intro a v t b w u c heq hnone
  obtain ⟨waiting, hwaiting, -, hhighest⟩ :=
    hstarts a v t (b ++ .started w u :: c) (by rw [heq, List.append_assoc, List.cons_append])
  obtain ⟨waiting', hwaiting', hmem, -⟩ := hstarts (a ++ .started v t :: b) w u c heq
  rw [scheduledOf_append, gone_append, scheduledOf_cons, gone_cons, hnone, scheduledOf_started,
    add_zero, add_zero, hwaiting, add_assoc] at hwaiting'
  -- what waits for the second start waited for the first one
  have hpart := add_left_cancel hwaiting'
  refine hhighest u ?_
  rw [hpart]
  exact Multiset.mem_add.mpr (.inr hmem)

/-! ## Every run -/

/-- **In which order tasks start.** In every run of a pool, whatever is
scheduled, cleared, resized, terminated and thrown by whatever threads: when a
task is started, with a FIFO scheduler exactly the tasks scheduled before it
have been started or dropped; with a LIFO scheduler exactly those scheduled
after it have been started since then; and with a priority scheduler, whichever
of several tasks of one priority it hands out first, no task that is scheduled,
neither started nor dropped, has a higher priority, so that as long as none is
scheduled the priorities of those that start do not rise. -/
theorem starts_in_order :
    (∀ (as : List (Act τ ι)) s,
      run (step fifoScheduler) (PoolState.init fifoScheduler) as = some s →
        StartsBy Oldest (poolHistory fifoScheduler as)) ∧
    (∀ (as : List (Act τ ι)) s,
      run (step lifoScheduler) (PoolState.init lifoScheduler) as = some s →
        StartsBy Newest (poolHistory lifoScheduler as)) ∧
    (prioScheduler : SchedulingPolicy _ (PrioTaskFunc τ)).Prioritized ∧
    ∀ {σ : Type} (policy : SchedulingPolicy σ (PrioTaskFunc τ)), policy.Prioritized →
      ∀ (as : List (Act (PrioTaskFunc τ) ι)) s,
        run (step policy) (PoolState.init policy) as = some s →
          StartsBy Highest (poolHistory policy as) ∧ Descending (poolHistory policy as) := by
  refine ⟨fun _ _ hrun => fifo_discipline.startsBy hrun,
    fun _ _ hrun => lifo_discipline.startsBy hrun, prioScheduler_prioritized, ?_⟩
  intro σ policy hprio as s hrun
  have hstarts := (prio_discipline hprio).startsBy hrun
  exact ⟨hstarts, hstarts.descending⟩

/-- Two tasks are scheduled, a worker is created, and it takes one of them. -/
def oneOfTwoRun (t u : τ) : List (Act τ Unit) :=
  let caller := .caller () none true
  let worker := .worker 0 true
  [.call () (.schedule t), caller, caller, .call () (.schedule u), caller, caller] ++
    [.call () (.resize 1), caller, caller, caller, caller, worker, worker, worker]

/-- The theorem where the policies differ: the worker takes the task scheduled
first, the one scheduled last, and the one with the higher priority. -/
theorem starts_in_order_one_of_two :
    (StartsBy Oldest (poolHistory fifoScheduler (oneOfTwoRun 1 2)) ∧
      starts (poolHistory fifoScheduler (oneOfTwoRun 1 2)) = [(0, 1)]) ∧
    (StartsBy Newest (poolHistory lifoScheduler (oneOfTwoRun 1 2)) ∧
      starts (poolHistory lifoScheduler (oneOfTwoRun 1 2)) = [(0, 2)]) ∧
    StartsBy Highest (poolHistory prioScheduler (oneOfTwoRun ⟨7, 1⟩ ⟨5, 2⟩)) ∧
      Descending (poolHistory prioScheduler (oneOfTwoRun ⟨7, 1⟩ ⟨5, 2⟩)) ∧
      starts (poolHistory prioScheduler (oneOfTwoRun ⟨7, 1⟩ ⟨5, 2⟩)) = [(0, ⟨7, 1⟩)] := by
  have hfifo : (run (step fifoScheduler) (PoolState.init fifoScheduler)
      (oneOfTwoRun 1 2)).isSome = true := rfl
  have hlifo : (run (step lifoScheduler) (PoolState.init lifoScheduler)
      (oneOfTwoRun 1 2)).isSome = true := rfl
  have hprio : (run (step prioScheduler) (PoolState.init prioScheduler)
      (oneOfTwoRun (⟨7, 1⟩ : PrioTaskFunc Nat) ⟨5, 2⟩)).isSome = true := rfl
  obtain ⟨s, hs⟩ := Option.isSome_iff_exists.mp hfifo
  obtain ⟨t, ht⟩ := Option.isSome_iff_exists.mp hlifo
  obtain ⟨u, hu⟩ := Option.isSome_iff_exists.mp hprio
  obtain ⟨hhighest, hdescending⟩ :=
    starts_in_order.2.2.2 prioScheduler prioScheduler_prioritized _ u hu
  exact ⟨⟨starts_in_order.1 _ s hs, rfl⟩, ⟨starts_in_order.2.1 _ t ht, rfl⟩, hhighest,
    hdescending, rfl⟩

end Satf.ThreadPool
