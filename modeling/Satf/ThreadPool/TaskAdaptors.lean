import Satf.Lib.Simulation
import Mathlib.Data.UInt

/-!
# Looped tasks

A `looped_task_func` calls a function until it returns `false`, with a break
before the first call and between the calls. The worker that executes it is
engaged all the time.

The interval is given in milliseconds and kept as seconds and nanoseconds, each
in an `unsigned int`. A break ends at a point in time that is computed field by
field, so its nanoseconds may exceed a second; that they still fit into the
field, an `int`, is part of `Xtime`.

What the task is for is `Schedule`: a call begins at the earliest when the
interval has passed since the task was entered, or since the call before
returned `true`.

> `calls_spaced`: for every interval, whatever the function answers and however
> time passes, the calls keep to the schedule.
-/

namespace Satf.ThreadPool

open Satf.Lib

/-- `xtime`, whose nanoseconds are an `int`. -/
structure Xtime where
  sec : Nat
  nsec : Nat
  fits : nsec < 2 ^ 31

/-- The point in time, in nanoseconds. -/
def Xtime.ns (t : Xtime) : Nat := t.sec * 1000000000 + t.nsec

/-- `xtime_get` when the clock shows `now` nanoseconds. -/
def xtimeGet (now : Nat) : Xtime where
  sec := now / 1000000000
  nsec := now % 1000000000
  fits := by omega

/-- `looped_task_func`: whether it has a function, and how long a break is. The
nanoseconds are less than a second. -/
structure LoopedTaskFunc where
  hasFunction : Bool
  breakS : UInt32
  breakNs : UInt32
  breakNs_lt : breakNs.toNat < 1000000000

/-- The nanoseconds of a break are computed without overflow. -/
theorem restNs_toNat (interval : UInt32) :
    ((interval - interval / 1000 * 1000) * 1000 * 1000).toNat
      = interval.toNat % 1000 * 1000000 := by
  have hsmall := interval.toNat_lt
  have hmul : (interval / 1000 * 1000).toNat = interval.toNat / 1000 * 1000 := by
    rw [UInt32.toNat_mul, UInt32.toNat_div]
    exact Nat.mod_eq_of_lt (Nat.lt_of_le_of_lt (Nat.div_mul_le_self _ _) hsmall)
  have hle : interval / 1000 * 1000 ≤ interval := by
    rw [UInt32.le_iff_toNat_le, hmul]
    exact Nat.div_mul_le_self _ _
  have hrest : (interval - interval / 1000 * 1000).toNat = interval.toNat % 1000 := by
    rw [UInt32.toNat_sub_of_le _ _ hle, hmul]
    omega
  rw [UInt32.toNat_mul, UInt32.toNat_mul, hrest]
  show interval.toNat % 1000 * 1000 % 2 ^ 32 * 1000 % 2 ^ 32 = _
  omega

/-- The constructor. -/
def loopedTaskFunc (hasFunction : Bool) (interval : UInt32) : LoopedTaskFunc where
  hasFunction := hasFunction
  breakS := interval / 1000
  breakNs := (interval - interval / 1000 * 1000) * 1000 * 1000
  breakNs_lt := by
    rw [restNs_toNat]
    omega

namespace LoopedTaskFunc

/-- `m_break_s > 0 || m_break_ns > 0` -/
def breaks (f : LoopedTaskFunc) : Bool := f.breakS > 0 || f.breakNs > 0

/-- The end of a break that begins now. -/
def breakEnd (f : LoopedTaskFunc) (now : Nat) : Xtime where
  sec := (xtimeGet now).sec + f.breakS.toNat
  nsec := (xtimeGet now).nsec + f.breakNs.toNat
  fits := by
    have hns := f.breakNs_lt
    show now % 1000000000 + f.breakNs.toNat < 2 ^ 31
    omega

/-- Where a worker is in `operator()`. -/
inductive Pc where
  | entered
  | sleeping (xt : Xtime)
  /-- About to call the function. -/
  | call
  | calling
  /-- The function has returned `true`. -/
  | answered
  | returned

/-- What the clock shows, in nanoseconds, and the worker's place. -/
structure State where
  now : Nat
  pc : Pc

inductive Act where
  /-- Time passes. -/
  | pass (ns : Nat)
  | task
  /-- The function returns. -/
  | answer (b : Bool)

/-- When the calls begin and end. -/
inductive Event where
  | called (now : Nat)
  | answered (now : Nat) (b : Bool)

/-- To the next call, with a break or by `yield`. -/
def toCall (f : LoopedTaskFunc) (now : Nat) : Pc :=
  if f.breaks then .sleeping (f.breakEnd now) else .call

def step (f : LoopedTaskFunc) (s : State) : Act → Option State
  | .pass ns => some { s with now := s.now + ns }
  | .task =>
    match s.pc with
    | .entered => some { s with pc := if f.hasFunction then f.toCall s.now else .returned }
    | .sleeping xt => if xt.ns ≤ s.now then some { s with pc := .call } else none
    | .call => some { s with pc := .calling }
    | .answered => some { s with pc := f.toCall s.now }
    | .calling | .returned => none
  | .answer b =>
    match s.pc with
    | .calling => some { s with pc := if b then .answered else .returned }
    | _ => none

def events (s : State) : Act → List Event
  | .task =>
    match s.pc with
    | .call => [.called s.now]
    | _ => []
  | .answer b => [.answered s.now b]
  | .pass _ => []

/-! ## Breaks -/

variable {interval : UInt32} {hasFunction : Bool}

theorem breakS_toNat : (loopedTaskFunc hasFunction interval).breakS.toNat
    = interval.toNat / 1000 := by
  simp [loopedTaskFunc]

theorem breakNs_toNat : (loopedTaskFunc hasFunction interval).breakNs.toNat
    = interval.toNat % 1000 * 1000000 := restNs_toNat interval

/-- A break is as long as the interval. -/
theorem breakEnd_ns (now : Nat) :
    ((loopedTaskFunc hasFunction interval).breakEnd now).ns = now + interval.toNat * 1000000 := by
  show (now / 1000000000 + (loopedTaskFunc hasFunction interval).breakS.toNat) * 1000000000
    + (now % 1000000000 + (loopedTaskFunc hasFunction interval).breakNs.toNat) = _
  rw [breakS_toNat, breakNs_toNat]
  omega

/-- Without breaks, the interval is zero. -/
theorem interval_of_breaks (h : (loopedTaskFunc hasFunction interval).breaks = false) :
    interval.toNat = 0 := by
  have hs : (loopedTaskFunc hasFunction interval).breakS.toNat = _ := breakS_toNat
  have hns : (loopedTaskFunc hasFunction interval).breakNs.toNat = _ := breakNs_toNat
  simp only [breaks, gt_iff_lt, Bool.or_eq_false_iff, decide_eq_false_iff_not] at h
  rw [UInt32.lt_iff_toNat_lt, UInt32.lt_iff_toNat_lt, hs, hns] at h
  show interval.toNat = 0
  have hzero : (0 : UInt32).toNat = 0 := rfl
  omega

/-! ## The schedule -/

/-- Where the calls are: the next one is due some time after `since`, one has
begun, or there are no more. -/
inductive Phase where
  | due (since : Nat)
  | busy (began : Nat)
  | ended

/-- A call begins `wait` after what it is counted from, or later. -/
def Phase.next (wait : Nat) : Phase → Event → Option Phase
  | .due since, .called now => if since + wait ≤ now then some (.busy now) else none
  | .busy began, .answered now b =>
    if began ≤ now then some (if b then .due now else .ended) else none
  | _, _ => none

/-- What the clock shows where the worker is, if the calls are in this phase. -/
def Fits (hasFunction : Bool) (wait : Nat) (s : State) : Phase → Prop
  | .due since =>
    match s.pc with
    | .entered | .answered => since ≤ s.now
    | .sleeping xt => since + wait ≤ xt.ns
    | .call => since + wait ≤ s.now
    | .calling => False
    | .returned => hasFunction = false
  | .busy began => s.pc = .calling ∧ began ≤ s.now
  | .ended => s.pc = .returned

/-- On the way to the next call. -/
theorem fits_toCall {since now : Nat} (h : since ≤ now) :
    Fits hasFunction (interval.toNat * 1000000)
      ⟨now, (loopedTaskFunc hasFunction interval).toCall now⟩ (.due since) := by
  unfold toCall
  split
  · show since + interval.toNat * 1000000 ≤ ((loopedTaskFunc hasFunction interval).breakEnd now).ns
    rw [breakEnd_ns]
    omega
  next hnone =>
    show since + interval.toNat * 1000000 ≤ now
    rw [interval_of_breaks (Bool.eq_false_iff.mpr hnone)]
    omega

/-- A step takes the calls to the next phase. -/
theorem step_fits {s s' : State} {a : Act} {phase : Phase}
    (hfits : Fits hasFunction (interval.toNat * 1000000) s phase)
    (hstep : step (loopedTaskFunc hasFunction interval) s a = some s') :
    ∃ phase', run (Phase.next (interval.toNat * 1000000)) phase (events s a) = some phase' ∧
      Fits hasFunction (interval.toNat * 1000000) s' phase' := by
  obtain ⟨now, pc⟩ := s
  cases a with
  | pass ns =>
    cases hstep
    refine ⟨phase, rfl, ?_⟩
    cases phase with
    | due since =>
      cases pc with
      | entered | answered | call =>
        simp only [Fits] at hfits ⊢
        omega
      | sleeping | calling | returned => exact hfits
    | busy began => exact ⟨hfits.1, Nat.le_trans hfits.2 (Nat.le_add_right _ _)⟩
    | ended => exact hfits
  | task =>
    cases phase with
    | due since =>
      cases pc with
      | entered =>
        cases hstep
        refine ⟨.due since, rfl, ?_⟩
        cases hasFunction with
        | true => exact fits_toCall hfits
        | false => rfl
      | answered =>
        cases hstep
        exact ⟨.due since, rfl, fits_toCall hfits⟩
      | sleeping xt =>
        simp only [step] at hstep
        split at hstep
        next hpassed =>
          cases hstep
          exact ⟨.due since, rfl, Nat.le_trans hfits hpassed⟩
        next => exact absurd hstep (by simp)
      | call =>
        cases hstep
        refine ⟨.busy now, ?_, rfl, Nat.le_refl _⟩
        have hdue : since + interval.toNat * 1000000 ≤ now := hfits
        simp only [events, run, Phase.next]
        rw [if_pos hdue]
        rfl
      | calling => exact absurd hfits id
      | returned => cases hstep
    | busy began => obtain ⟨rfl, -⟩ := hfits; cases hstep
    | ended => cases hfits; cases hstep
  | answer b =>
    cases phase with
    | due since =>
      cases pc with
      | calling => exact absurd hfits id
      | _ => cases hstep
    | busy began =>
      obtain ⟨hpc, hle⟩ := hfits
      subst hpc
      cases hstep
      refine ⟨if b then .due now else .ended, ?_, ?_⟩
      · simp only [events, run, Phase.next]
        rw [if_pos hle]
        rfl
      · cases b with
        | true => exact Nat.le_refl now
        | false => rfl
    | ended => cases hfits; cases hstep

/-- **The calls of a looped task are spaced.** For every interval, in every run
of the task entered at time `start`, whatever its function answers and however
time passes: each call begins at least the interval after `start` or after the
call before returned `true`, none begins after one that returned `false`, and
the task returns just then, or at once if it has no function. -/
theorem calls_spaced {start : Nat} {as : List Act} {s : State}
    (hrun : run (step (loopedTaskFunc hasFunction interval)) ⟨start, .entered⟩ as = some s) :
    ∃ phase, run (Phase.next (interval.toNat * 1000000)) (.due start)
        (history (step (loopedTaskFunc hasFunction interval)) events ⟨start, .entered⟩ as)
          = some phase ∧
      (phase = .ended → s.pc = .returned) ∧
      (s.pc = .returned → phase = .ended ∨ hasFunction = false) := by
  have hinv := @history_invariant _ _ _ _ events ⟨start, .entered⟩
    (fun s h => ∃ phase, run (Phase.next (interval.toNat * 1000000)) (.due start) h = some phase ∧
      Fits hasFunction (interval.toNat * 1000000) s phase)
    ⟨.due start, rfl, Nat.le_refl start⟩ ?_ as s hrun
  · obtain ⟨phase, hphase, hfits⟩ := hinv
    refine ⟨phase, hphase, ?_, ?_⟩
    · intro hended
      subst hended
      exact hfits
    · intro hpc
      cases phase with
      | due since =>
        simp only [Fits, hpc] at hfits
        exact .inr hfits
      | busy began => rw [hfits.1] at hpc; cases hpc
      | ended => exact .inl rfl
  · rintro s h a s' - ⟨phase, hphase, hfits⟩ hstep
    obtain ⟨phase', hphase', hfits'⟩ := step_fits hfits hstep
    refine ⟨phase', ?_, hfits'⟩
    rw [run_append, hphase]
    exact hphase'

end LoopedTaskFunc

end Satf.ThreadPool
