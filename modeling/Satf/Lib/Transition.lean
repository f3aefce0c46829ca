import Mathlib.Data.List.Basic

/-!
# Labelled transition systems

A system is a partial step function `step : σ → ι → Option σ`: the action says
who moves and resolves every choice, and `none` says that this move is not
possible here. A run is a list of actions; what it leads to is computed, so a
concrete run can be evaluated and a statement about all runs is a statement
about all lists.

`Reachable.invariant` is the induction over runs. `Meets` restricts it to the
runs whose steps all meet a condition, `ReachableBy` to those of one kind of
actions, and `Stuck` is a state from which none of the given actions leads on.
-/

namespace Satf.Lib

variable {σ ι : Type}

/-- The state a list of actions leads to, if each of them is possible. -/
def run (step : σ → ι → Option σ) : σ → List ι → Option σ
  | s, [] => some s
  | s, a :: as => (step s a).bind fun s' => run step s' as

/-- `s` is reached from `start` by some run. -/
def Reachable (step : σ → ι → Option σ) (start s : σ) : Prop :=
  ∃ as, run step start as = some s

/-- Every step along the run meets `cond`, a condition on the state before the
step and the action. -/
def Meets (step : σ → ι → Option σ) (cond : σ → ι → Prop) : σ → List ι → Prop
  | _, [] => True
  | s, a :: as => cond s a ∧ ∀ s', step s a = some s' → Meets step cond s' as

/-- Whether a given run meets a decidable condition can be computed. -/
def decideMeets (step : σ → ι → Option σ) (cond : σ → ι → Prop) [∀ s a, Decidable (cond s a)] :
    ∀ (s : σ) (as : List ι), Decidable (Meets step cond s as)
  | _, [] => isTrue trivial
  | s, a :: as =>
    if hcond : cond s a then
      match hstep : step s a with
      | none => isTrue ⟨hcond, fun s' h => absurd (hstep.symm.trans h) (by simp)⟩
      | some t =>
        match decideMeets step cond t as with
        | isTrue h => isTrue ⟨hcond, fun s' hs => by cases hstep.symm.trans hs; exact h⟩
        | isFalse h => isFalse fun hm => h (hm.2 t hstep)
    else isFalse fun h => hcond h.1

instance (step : σ → ι → Option σ) (cond : σ → ι → Prop) [∀ s a, Decidable (cond s a)]
    (s : σ) (as : List ι) : Decidable (Meets step cond s as) := decideMeets step cond s as

/-- None of the actions that count as progress is possible. -/
def Stuck (step : σ → ι → Option σ) (progress : ι → Prop) (s : σ) : Prop :=
  ∀ a, progress a → step s a = none

/-- A run splits at any point. -/
theorem run_append (step : σ → ι → Option σ) (s : σ) (as bs : List ι) :
    run step s (as ++ bs) = (run step s as).bind fun s' => run step s' bs := by
  induction as generalizing s with
  | nil => rfl
  | cons a as ih =>
    simp only [List.cons_append, run]
    cases step s a with
    | none => rfl
    | some s' => exact ih s'

theorem Reachable.refl (step : σ → ι → Option σ) (s : σ) : Reachable step s s := ⟨[], rfl⟩

theorem Reachable.step {step : σ → ι → Option σ} {start s s' : σ} {a : ι}
    (hr : Reachable step start s) (ha : step s a = some s') : Reachable step start s' := by
  obtain ⟨as, has⟩ := hr
  refine ⟨as ++ [a], ?_⟩
  rw [run_append, has]
  simp [run, ha]

theorem Reachable.trans {step : σ → ι → Option σ} {start s s' : σ}
    (hr : Reachable step start s) (hr' : Reachable step s s') : Reachable step start s' := by
  obtain ⟨as, has⟩ := hr
  obtain ⟨bs, hbs⟩ := hr'
  refine ⟨as ++ bs, ?_⟩
  rw [run_append, has]
  exact hbs

/-- `s` is reached from `start` by a run of actions that all are of one kind. -/
def ReachableBy (step : σ → ι → Option σ) (P : ι → Prop) (start s : σ) : Prop :=
  ∃ as, (∀ a ∈ as, P a) ∧ run step start as = some s

section
variable {step : σ → ι → Option σ} {P : ι → Prop} {start s s' : σ}

theorem ReachableBy.reachable (h : ReachableBy step P start s) : Reachable step start s := by
  obtain ⟨as, -, has⟩ := h
  exact ⟨as, has⟩

theorem ReachableBy.trans (h : ReachableBy step P start s) (h' : ReachableBy step P s s') :
    ReachableBy step P start s' := by
  obtain ⟨as, hP, has⟩ := h
  obtain ⟨bs, hP', hbs⟩ := h'
  refine ⟨as ++ bs, fun a ha => ?_, ?_⟩
  · exact (List.mem_append.mp ha).elim (hP a) (hP' a)
  · rw [run_append, has]
    exact hbs

/-- If every stage leads to the next one, the first leads to the last. -/
theorem ReachableBy.iterate {stage : Nat → σ} {n : Nat}
    (h : ∀ j, j < n → ReachableBy step P (stage j) (stage (j + 1))) :
    ReachableBy step P (stage 0) (stage n) := by
  induction n with
  | zero => exact ⟨[], fun a ha => absurd ha List.not_mem_nil, rfl⟩
  | succ n ih => exact (ih fun j hj => h j (Nat.lt_succ_of_lt hj)).trans (h n (Nat.lt_succ_self n))

end

/-- What holds at the start and is kept by every step that meets the condition
holds at the end of every run whose steps meet it. -/
theorem Meets.invariant {step : σ → ι → Option σ} {cond : σ → ι → Prop} {inv : σ → Prop}
    (hstep : ∀ s a s', inv s → cond s a → step s a = some s' → inv s') :
    ∀ (as : List ι) {start s : σ}, inv start → Meets step cond start as →
      run step start as = some s → inv s := by
  intro as
  induction as with
  | nil =>
    intro start s hinv _ hrun
    simp only [run, Option.some.injEq] at hrun
    exact hrun ▸ hinv
  | cons a as ih =>
    intro start s hinv hmeets hrun
    simp only [run, Option.bind_eq_some_iff] at hrun
    obtain ⟨s', ha, hrest⟩ := hrun
    exact ih (hstep start a s' hinv hmeets.1 ha) (hmeets.2 s' ha) hrest

/-- Along a run whose steps meet one condition, an invariant can give another. -/
theorem Meets.of_invariant {step : σ → ι → Option σ} {cond cond' : σ → ι → Prop} {inv : σ → Prop}
    (hstep : ∀ s a s', inv s → cond s a → step s a = some s' → inv s')
    (hgives : ∀ s a, inv s → cond s a → cond' s a) :
    ∀ (as : List ι) {start : σ}, inv start → Meets step cond start as →
      Meets step cond' start as := by
  intro as
  induction as with
  | nil =>
    intro start _ _
    trivial
  | cons a as ih =>
    intro start hinv hmeets
    refine ⟨hgives start a hinv hmeets.1, ?_⟩
    intro s' ha
    exact ih (hstep start a s' hinv hmeets.1 ha) (hmeets.2 s' ha)

/-- A condition on the actions of a run. -/
theorem Meets.of_mem {step : σ → ι → Option σ} {P : ι → Prop} :
    ∀ {as : List ι} {start : σ}, (∀ a ∈ as, P a) → Meets step (fun _ => P) start as
  | [], _, _ => trivial
  | a :: _, _, h =>
    ⟨h a List.mem_cons_self, fun _ _ => .of_mem fun b hb => h b (List.mem_cons_of_mem a hb)⟩

/-- What holds at the start and is kept by every step holds in every reachable
state. -/
theorem Reachable.invariant {step : σ → ι → Option σ} {inv : σ → Prop} {start s : σ}
    (hr : Reachable step start s) (hinit : inv start)
    (hstep : ∀ s a s', inv s → step s a = some s' → inv s') : inv s := by
  obtain ⟨as, has⟩ := hr
  have hmeets : Meets step (fun _ _ => True) start as := .of_mem fun _ _ => trivial
  exact Meets.invariant (fun s a s' hi _ ha => hstep s a s' hi ha) as hinit hmeets has

/-- The same for what is kept by every step from a reachable state. -/
theorem Reachable.invariant_along {step : σ → ι → Option σ} {inv : σ → Prop} {start s : σ}
    (hr : Reachable step start s) (hinit : inv start)
    (hstep : ∀ s a s', Reachable step start s → inv s → step s a = some s' → inv s') : inv s := by
  have hboth : ∀ s a s', Reachable step start s ∧ inv s → step s a = some s' →
      Reachable step start s' ∧ inv s' :=
    fun s a s' h ha => ⟨h.1.step ha, hstep s a s' h.1 h.2 ha⟩
  exact (hr.invariant ⟨Reachable.refl step start, hinit⟩ hboth).2

end Satf.Lib
