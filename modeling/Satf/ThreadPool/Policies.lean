import Mathlib.Data.Multiset.AddSub
import Mathlib.Data.List.Basic

/-!
# Scheduling policies

The container that a pool keeps its pending tasks in. A `SchedulingPolicy` has
the operations that `pool_core` uses, and with them what they do to the tasks
it holds, in whatever order it hands them out; `fifo_scheduler`,
`lifo_scheduler` and `prio_scheduler` are three of them.

`push` may refuse a task. None of the three does.
-/

namespace Satf.ThreadPool

variable {σ τ : Type}

structure SchedulingPolicy (σ τ : Type) where
  /-- What `clear` leaves. -/
  clear : σ
  push : σ → τ → Option σ
  top : σ → Option τ
  pop : σ → σ
  size : σ → Nat
  empty : σ → Bool
  /-- The tasks held. -/
  tasks : σ → Multiset τ
  tasks_clear : tasks clear = 0
  tasks_push : ∀ {c t c'}, push c t = some c' → tasks c' = t ::ₘ tasks c
  tasks_pop : ∀ {c}, empty c = false → ∃ t, top c = some t ∧ tasks c = t ::ₘ tasks (pop c)
  empty_iff : ∀ c, empty c = true ↔ tasks c = 0
  size_eq : ∀ c, size c = (tasks c).card

/-- `fifo_scheduler`: a deque, pushed at the back and popped at the front. -/
def fifoScheduler : SchedulingPolicy (List τ) τ where
  clear := []
  push c t := some (c ++ [t])
  top := List.head?
  pop := List.tail
  size := List.length
  empty := List.isEmpty
  tasks c := c
  tasks_clear := rfl
  tasks_push {c t c'} h := by
    cases h
    rw [Multiset.coe_eq_coe.mpr (List.perm_append_singleton t c), ← Multiset.cons_coe]
  tasks_pop {c} h := by
    cases c with
    | nil => cases h
    | cons t c => exact ⟨t, rfl, rfl⟩
  empty_iff c := by
    rw [List.isEmpty_iff, Multiset.coe_eq_zero]
  size_eq c := rfl

/-- `lifo_scheduler`: a deque, pushed and popped at the front. -/
def lifoScheduler : SchedulingPolicy (List τ) τ where
  clear := []
  push c t := some (t :: c)
  top := List.head?
  pop := List.tail
  size := List.length
  empty := List.isEmpty
  tasks c := c
  tasks_clear := rfl
  tasks_push {c t c'} h := by
    cases h
    rfl
  tasks_pop {c} h := by
    cases c with
    | nil => cases h
    | cons t c => exact ⟨t, rfl, rfl⟩
  empty_iff c := by
    rw [List.isEmpty_iff, Multiset.coe_eq_zero]
  size_eq c := rfl

/-! ## Priorities -/

/-- `prio_task_func`: a function with a priority. -/
structure PrioTaskFunc (τ : Type) where
  priority : UInt32
  function : τ

/-- `operator<`. -/
def PrioTaskFunc.lt (a b : PrioTaskFunc τ) : Bool := a.priority < b.priority

/-- The first of the tasks that no other is above, and the others. -/
def takeHighest : List (PrioTaskFunc τ) → Option (PrioTaskFunc τ × List (PrioTaskFunc τ))
  | [] => none
  | t :: ts =>
    match takeHighest ts with
    | none => some (t, [])
    | some (u, us) => if t.lt u then some (u, t :: us) else some (t, u :: us)

theorem takeHighest_eq_none : ∀ {ts : List (PrioTaskFunc τ)}, takeHighest ts = none → ts = []
  | [], _ => rfl
  | t :: ts, h => by
    unfold takeHighest at h
    split at h
    next => cases h
    next => split at h <;> cases h

theorem takeHighest_perm : ∀ {ts : List (PrioTaskFunc τ)} {t rest},
    takeHighest ts = some (t, rest) → ts.Perm (t :: rest)
  | t :: ts, t', rest, h => by
    unfold takeHighest at h
    split at h
    next hnone =>
      cases h
      rw [takeHighest_eq_none hnone]
    next u us hsome =>
      have ih := takeHighest_perm hsome
      split at h
      · cases h
        exact (ih.cons t).trans (List.Perm.swap _ _ _)
      · cases h
        exact ih.cons t

/-- No task is left that has a higher priority than the one taken. -/
theorem takeHighest_max : ∀ {ts : List (PrioTaskFunc τ)} {t rest},
    takeHighest ts = some (t, rest) → ∀ u ∈ ts, t.lt u = false
  | t :: ts, t', rest, h, u, hu => by
    have hself : ∀ v : PrioTaskFunc τ, v.lt v = false := fun v => by simp [PrioTaskFunc.lt]
    unfold takeHighest at h
    split at h
    next hnone =>
      cases h
      rw [takeHighest_eq_none hnone, List.mem_singleton] at hu
      rw [hu]
      exact hself _
    next v vs hsome =>
      have ih := takeHighest_max hsome
      split at h
      next hlt =>
        cases h
        rcases List.mem_cons.mp hu with rfl | hu
        · simp [PrioTaskFunc.lt] at hlt ⊢
          exact UInt32.le_of_lt hlt
        · exact ih u hu
      next hnot =>
        cases h
        rcases List.mem_cons.mp hu with rfl | hu
        · exact hself _
        · have hv := ih u hu
          simp [PrioTaskFunc.lt] at hnot hv ⊢
          exact UInt32.le_trans hv hnot

/-- No task in the container is above the one on top. -/
def SchedulingPolicy.Prioritized (policy : SchedulingPolicy σ (PrioTaskFunc τ)) : Prop :=
  ∀ c t, policy.top c = some t → ∀ u ∈ policy.tasks c, t.lt u = false

/-- `prio_scheduler`: a priority queue. Which of several tasks with the highest
priority is on top is left open by the queue; here it is the one pushed first. -/
def prioScheduler : SchedulingPolicy (List (PrioTaskFunc τ)) (PrioTaskFunc τ) where
  clear := []
  push c t := some (c ++ [t])
  top c := (takeHighest c).map Prod.fst
  pop c := ((takeHighest c).map Prod.snd).getD []
  size := List.length
  empty := List.isEmpty
  tasks c := c
  tasks_clear := rfl
  tasks_push {c t c'} h := by
    cases h
    rw [Multiset.coe_eq_coe.mpr (List.perm_append_singleton t c), ← Multiset.cons_coe]
  tasks_pop {c} h := by
    cases hc : takeHighest c with
    | none => rw [takeHighest_eq_none hc] at h; cases h
    | some p => exact ⟨p.1, rfl, Multiset.coe_eq_coe.mpr (takeHighest_perm hc)⟩
  empty_iff c := by
    rw [List.isEmpty_iff, Multiset.coe_eq_zero]
  size_eq c := rfl

theorem prioScheduler_prioritized :
    (prioScheduler : SchedulingPolicy _ (PrioTaskFunc τ)).Prioritized := by
  intro c t htop u hu
  obtain ⟨⟨t, rest⟩, htake, rfl⟩ := Option.map_eq_some_iff.mp htop
  exact takeHighest_max htake u (Multiset.mem_coe.mp hu)

end Satf.ThreadPool
