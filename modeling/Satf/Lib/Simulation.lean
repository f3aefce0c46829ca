import Satf.Lib.Transition
import Mathlib.Data.List.Count

/-!
# Histories, simulations and potentials

Three rules about the runs of a transition system, each by one induction over
the run.

* `history` collects what the steps of a run report; `history_invariant`
  relates it to the state reached, `history_append` splits it.
* `simulation`: when every step of one system is a run of another on related
  states, so is every run; `simulation_history` compares what they report.
* `Potential.run`: when every step that counts as progress uses up a part of a
  potential, and the others add at most `c`, a run makes only so much
  progress.

All of them may use that the states are reachable.
-/

namespace Satf.Lib

variable {σ ι ε : Type}

/-! ## Histories -/

/-- What the steps of a run report, one after the other. -/
def history (step : σ → ι → Option σ) (label : σ → ι → List ε) : σ → List ι → List ε
  | _, [] => []
  | s, a :: as =>
    match step s a with
    | none => []
    | some s' => label s a ++ history step label s' as

theorem history_cons {step : σ → ι → Option σ} (label : σ → ι → List ε) {s s' : σ} {a : ι}
    (as : List ι) (h : step s a = some s') :
    history step label s (a :: as) = label s a ++ history step label s' as := by
  simp only [history, h]

theorem history_append {step : σ → ι → Option σ} (label : σ → ι → List ε) {t : σ}
    (bs : List ι) : ∀ {as : List ι} {s : σ}, run step s as = some t →
      history step label s (as ++ bs) = history step label s as ++ history step label t bs
  | [], s, h => by cases h; rfl
  | a :: as, s, h => by
    simp only [run, Option.bind_eq_some_iff] at h
    obtain ⟨s', hs', h⟩ := h
    rw [List.cons_append, history_cons label _ hs', history_cons label _ hs',
      history_append label bs h, List.append_assoc]

/-- What the actions alone report. -/
theorem history_of_actions {step : σ → ι → Option σ} (label : ι → List ε) :
    ∀ {as : List ι} {s t : σ}, run step s as = some t →
      history step (fun _ => label) s as = as.flatMap label
  | [], _, _, _ => rfl
  | a :: as, s, t, h => by
    simp only [run, Option.bind_eq_some_iff] at h
    obtain ⟨s', hs', h⟩ := h
    rw [history_cons _ _ hs', history_of_actions label h, List.flatMap_cons]

/-- What holds at the start without a history, and is kept when a step that
meets the condition adds what it reports, holds of every run whose steps meet
it, and its history. -/
theorem Meets.history_invariant {step : σ → ι → Option σ} {label : σ → ι → List ε} {start : σ}
    {cond : σ → ι → Prop} {inv : σ → List ε → Prop} (hinit : inv start [])
    (hstep : ∀ s h a s', Reachable step start s → inv s h → cond s a → step s a = some s' →
      inv s' (h ++ label s a)) :
    ∀ {as : List ι} {s : σ}, Meets step cond start as → run step start as = some s →
      inv s (history step label start as) := by
  -- the induction is on what is left of the run, after a past with history `h`
  have hrest : ∀ (as : List ι) (s s' : σ) (h : List ε), Reachable step start s → inv s h →
      Meets step cond s as → run step s as = some s' →
      inv s' (h ++ history step label s as) := by
    intro as
    induction as with
    | nil =>
      intro s s' h _ hinv _ hrun
      cases hrun
      rw [history, List.append_nil]
      exact hinv
    | cons a as ih =>
      intro s s' h hreach hinv hmeets hrun
      simp only [run, Option.bind_eq_some_iff] at hrun
      obtain ⟨t, ht, hrun⟩ := hrun
      rw [history_cons label as ht, ← List.append_assoc]
      exact ih t s' _ (hreach.step ht) (hstep s h a t hreach hinv hmeets.1 ht) (hmeets.2 t ht) hrun
  intro as s hmeets hrun
  exact hrest as start s [] (Reachable.refl _ _) hinit hmeets hrun

/-- What is kept when any step adds what it reports holds of every run and its
history. -/
theorem history_invariant {step : σ → ι → Option σ} {label : σ → ι → List ε} {start : σ}
    {inv : σ → List ε → Prop} (hinit : inv start [])
    (hstep : ∀ s h a s', Reachable step start s → inv s h → step s a = some s' →
      inv s' (h ++ label s a)) :
    ∀ {as : List ι} {s : σ}, run step start as = some s →
      inv s (history step label start as) := by
  intro as s hrun
  have hmeets : Meets step (fun _ _ => True) start as := .of_mem fun _ _ => trivial
  exact hmeets.history_invariant hinit (fun s h a s' hr hi _ hs => hstep s h a s' hr hi hs) hrun

/-! ## Simulations -/

/-- **Forward simulation.** If every step from a related pair of states is a
run of the other system to a related pair, every state reached has a related
one that the other system reaches. -/
theorem simulation {α β : Type} {step : σ → ι → Option σ} {astep : α → β → Option α}
    {rel : σ → α → Prop} {start : σ} {astart : α} (hinit : rel start astart)
    (hstep : ∀ s a s' x, Reachable step start s → Reachable astep astart x → rel s x →
      step s a = some s' → ∃ x', Reachable astep x x' ∧ rel s' x') :
    ∀ {s : σ}, Reachable step start s → ∃ x, Reachable astep astart x ∧ rel s x := by
  intro s hreach
  obtain ⟨as, has⟩ := hreach
  have hmain : ∀ (as : List ι) (t : σ) (y : α), Reachable step start t →
      Reachable astep astart y → rel t y → run step t as = some s →
      ∃ x, Reachable astep astart x ∧ rel s x := by
    intro as
    induction as with
    | nil =>
      intro t y _ hy hrel hrun
      cases hrun
      exact ⟨y, hy, hrel⟩
    | cons a as ih =>
      intro t y ht hy hrel hrun
      simp only [run, Option.bind_eq_some_iff] at hrun
      obtain ⟨t', hstep', hrun⟩ := hrun
      obtain ⟨y', hy', hrel'⟩ := hstep t a t' y ht hy hrel hstep'
      exact ih t' y' (ht.step hstep') (hy.trans hy') hrel' hrun
  exact hmain as start astart (Reachable.refl _ _) (Reachable.refl _ _) hinit has

/-- **Forward simulation with histories.** If every step from a related pair of
states is a run of the other system that reports the same, every run is. -/
theorem simulation_history {α β : Type} {step : σ → ι → Option σ} {astep : α → β → Option α}
    {label : σ → ι → List ε} {alabel : α → β → List ε} {rel : σ → α → Prop} {start : σ}
    {astart : α} (hinit : rel start astart)
    (hstep : ∀ s a s' x, Reachable step start s → rel s x → step s a = some s' →
      ∃ bs x', run astep x bs = some x' ∧ rel s' x' ∧ history astep alabel x bs = label s a) :
    ∀ {as : List ι} {s : σ}, run step start as = some s →
      ∃ bs x, run astep astart bs = some x ∧ rel s x ∧
        history astep alabel astart bs = history step label start as := by
  intro as s hrun
  refine @history_invariant _ _ _ step label start
    (fun s h => ∃ bs x, run astep astart bs = some x ∧ rel s x ∧ history astep alabel astart bs = h)
    ⟨[], astart, rfl, hinit, rfl⟩ ?_ as s hrun
  rintro s h a s' hreach ⟨bs, x, hbs, hrel, rfl⟩ hs
  obtain ⟨cs, x', hcs, hrel', hlabel⟩ := hstep s a s' x hreach hrel hs
  refine ⟨bs ++ cs, x', ?_, hrel', ?_⟩
  · rw [run_append, hbs]
    exact hcs
  · rw [history_append alabel cs hbs, hlabel]

/-! ## Potentials -/

/-- A step of progress costs some of the potential; any other adds at most `c`
to it. -/
structure Potential (step : σ → ι → Option σ) (progress : ι → Bool) (start : σ) (c : Nat)
    (pot : σ → Nat → Prop) : Prop where
  pays : ∀ s a s' m, Reachable step start s → pot s m → progress a = true →
    step s a = some s' → ∃ m', pot s' m' ∧ m' < m
  adds : ∀ s a s' m, Reachable step start s → pot s m → progress a = false →
    step s a = some s' → ∃ m', pot s' m' ∧ m' ≤ m + c

/-- The steps of progress in a run, and the potential left at its end, are
covered by the potential at its start and what the other steps have added. -/
theorem Potential.run {step : σ → ι → Option σ} {progress : ι → Bool} {start : σ} {c : Nat}
    {pot : σ → Nat → Prop} (h : Potential step progress start c pot) {m : Nat}
    (hinit : pot start m) {as : List ι} {s : σ} (hrun : run step start as = some s) :
    ∃ m', pot s m' ∧ as.countP progress + m' ≤ m + c * as.countP (fun a => !progress a) := by
  have hmain : ∀ (as : List ι) (t : σ) (m : Nat), Reachable step start t → pot t m →
      Satf.Lib.run step t as = some s →
      ∃ m', pot s m' ∧ as.countP progress + m' ≤ m + c * as.countP (fun a => !progress a) := by
    intro as
    induction as with
    | nil =>
      intro t m _ hpot hrun
      cases hrun
      exact ⟨m, hpot, by simp⟩
    | cons a as ih =>
      intro t m ht hpot hrun
      simp only [Satf.Lib.run, Option.bind_eq_some_iff] at hrun
      obtain ⟨t', hstep, hrun⟩ := hrun
      rw [List.countP_cons, List.countP_cons]
      cases hp : progress a with
      | true =>
        obtain ⟨m₁, hpot₁, hlt⟩ := h.pays t a t' m ht hpot hp hstep
        obtain ⟨m', hpot', hle⟩ := ih t' m₁ (ht.step hstep) hpot₁ hrun
        refine ⟨m', hpot', ?_⟩
        simp only [if_true, Bool.not_true, Bool.false_eq_true, if_false, Nat.add_zero]
        omega
      | false =>
        obtain ⟨m₁, hpot₁, hle₁⟩ := h.adds t a t' m ht hpot hp hstep
        obtain ⟨m', hpot', hle⟩ := ih t' m₁ (ht.step hstep) hpot₁ hrun
        refine ⟨m', hpot', ?_⟩
        simp only [Bool.false_eq_true, if_false, Bool.not_false, if_true, Nat.mul_add, Nat.mul_one]
        omega
  exact hmain as start m (Reachable.refl _ _) hinit hrun

end Satf.Lib
