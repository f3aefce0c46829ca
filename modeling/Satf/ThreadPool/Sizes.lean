import Satf.ThreadPool.Exceptions
import Satf.ThreadPool.Rest
import Satf.ThreadPool.Tasks
import Mathlib.Data.List.MinMax

/-!
# The size of the pool

`resize` sets a target and creates the workers that are missing; a worker that
is one too many leaves, and one that dies is replaced.

> `grown_pool_rests`: a pool that is never made smaller comes to rest with as
> many workers asleep as the largest size it was resized to, and with nothing
> left to do, though its tasks throw `boost::thread_interrupted`.
>
> `shrunk_pool_loses_all`: but one `resize` from `n` to `k < n` can cost an idle
> pool all of its `n` workers, and none of the tasks scheduled later is ever
> started.

In the first case `Grown` is the invariant: no worker is too many, and none is
missing while nobody is creating one. The second is a run: every worker wakes
up, finds that the pool is too large, and leaves before any of them has been
discounted.
-/

namespace Satf.ThreadPool

open Satf.Lib

variable {σ τ ι : Type} {policy : SchedulingPolicy σ τ} {s s' : PoolState σ τ ι} {i : ι} {w : Nat}
  {es : List (Event τ)} {a : Act τ ι}

/-! ## Pools that grow -/

/-- A step that does not make the pool smaller: the target is not lowered,
there are threads for new workers, and nobody terminates the pool. -/
def growing (s : PoolState σ τ ι) : Act τ ι → Bool
  | .caller i _ created =>
    created && match s.caller i with
      | .resizeStart workerCount => s.targetWorkerCount ≤ workerCount
      | _ => true
  | .worker _ created => created
  | .call _ (.terminateAllWorkers _) => false
  | _ => true

/-- The caller is in `terminate_all_workers`. -/
def CallerPc.terminates : CallerPc τ → Bool
  | .terminate _ | .terminating _ | .terminateTest | .terminateBlocked _ | .joining _ => true
  | _ => false

/-- The worker is on its way out of the pool. -/
def WorkerPc.leaves : WorkerPc τ → Bool
  | .destruct | .destructing => true
  | _ => false

/-- Nobody is creating workers. -/
def Still (s : PoolState σ τ ι) : Prop :=
  (∀ i, (s.caller i).grows = false) ∧
    ∀ (w : Nat) (pc : WorkerPc τ), s.workers[w]? = some pc → pc.grows = false

/-- What holds of a pool that is never made smaller. -/
structure Grown (s : PoolState σ τ ι) : Prop where
  runs : s.terminateAllWorkers = false
  caller : ∀ i, (s.caller i).terminates = false
  fits : s.workerCount ≤ s.targetWorkerCount
  full : Still s → s.targetWorkerCount ≤ s.workerCount
  stays : ∀ (w : Nat) (pc : WorkerPc τ), s.workers[w]? = some pc → pc.leaves = false

theorem CallerPc.afterLock_terminates {pc pc' : CallerPc τ} (h : pc.afterLock = some pc') :
    pc'.terminates = pc.terminates ∧ pc.grows = false := by
  cases pc with
  | waitBlocked timed threshold notified | terminateBlocked notified =>
    cases notified <;> cases h; exact ⟨rfl, rfl⟩
  | _ => cases h <;> exact ⟨rfl, rfl⟩

theorem CallerPc.notified_terminates (pc : CallerPc τ) :
    pc.notified.terminates = pc.terminates := by
  cases pc <;> rfl

theorem WorkerPc.notified_leaves (pc : WorkerPc τ) : pc.notified.leaves = pc.leaves := by
  cases pc <;> rfl

/-- The two counts and the flag are the same. -/
structure SameSize (s s' : PoolState σ τ ι) : Prop where
  count : s'.workerCount = s.workerCount
  target : s'.targetWorkerCount = s.targetWorkerCount
  flag : s'.terminateAllWorkers = s.terminateAllWorkers

theorem Grown.notifyAllIdle (h : Grown s) : Grown s.notifyAllIdle where
  runs := h.runs
  caller := fun i => by
    show (s.caller i).notified.terminates = false
    rw [CallerPc.notified_terminates]
    exact h.caller i
  fits := h.fits
  full := fun hstill => h.full ⟨fun i => CallerPc.notified_grows _ ▸ hstill.1 i, hstill.2⟩
  stays := h.stays

/-- A worker moves that neither creates workers nor leaves. -/
theorem Grown.workerTo (h : Grown s) {pc pc' : WorkerPc τ} (hw : s.workers[w]? = some pc)
    (hworkers : s'.workers = s.workers.set w pc') (hcaller : s'.caller = s.caller)
    (hsize : SameSize s s') (hgrows : pc.grows = false) (hleaves : pc'.leaves = false) :
    Grown s' where
  runs := by rw [hsize.flag]; exact h.runs
  caller := by rw [hcaller]; exact h.caller
  fits := by rw [hsize.count, hsize.target]; exact h.fits
  full := by
    intro hstill
    rw [hsize.count, hsize.target]
    refine h.full ⟨by rw [← hcaller]; exact hstill.1, ?_⟩
    exact forall_of_set hw hgrows (by rw [← hworkers]; exact hstill.2)
  stays := by
    rw [hworkers]
    exact forall_set (P := fun _ (pc : WorkerPc τ) => pc.leaves = false) h.stays hleaves

variable [DecidableEq ι]

/-- A caller moves that neither creates workers nor terminates the pool. -/
theorem Grown.callerTo (h : Grown s) {pc : CallerPc τ}
    (hcaller : s'.caller = Function.update s.caller i pc) (hworkers : s'.workers = s.workers)
    (hsize : SameSize s s') (hgrows : (s.caller i).grows = false)
    (hterminates : pc.terminates = false) : Grown s' where
  runs := by rw [hsize.flag]; exact h.runs
  caller := by
    rw [hcaller]
    exact forall_update (P := fun _ pc => pc.terminates = false) h.caller hterminates
  fits := by rw [hsize.count, hsize.target]; exact h.fits
  full := by
    intro hstill
    rw [hsize.count, hsize.target]
    refine h.full ⟨fun j => ?_, by rw [← hworkers]; exact hstill.2⟩
    by_cases hj : j = i
    · rw [hj]
      exact hgrows
    · have hsame := hstill.1 j
      rw [hcaller, Function.update_of_ne hj] at hsame
      exact hsame
  stays := by rw [hworkers]; exact h.stays

theorem CallerMove.grown (h : CallerMove policy s i true s' es)
    (hup : ∀ workerCount, s.caller i = .resizeStart workerCount →
      s.targetWorkerCount ≤ workerCount)
    (hinv : Grown s) : Grown s' := by
  have hnot : (s.caller i).terminates ≠ true :=
    fun h => absurd (h.symm.trans (hinv.caller i)) (by simp)
  cases h with
  | lock hlock =>
    obtain ⟨hsame, hgrows⟩ := CallerPc.afterLock_terminates hlock
    exact hinv.callerTo rfl rfl ⟨rfl, rfl, rfl⟩ hgrows (hsame.trans (hinv.caller i))
  | refused hcaller | push hcaller | cleared hcaller | waitBlock hcaller | waited hcaller
  | gaveUp hcaller =>
    exact hinv.callerTo rfl rfl ⟨rfl, rfl, rfl⟩ (by rw [hcaller]; rfl) rfl
  | @pushNotify task c w hcaller hpush hasleep =>
    have hnotified : Grown (s.atWorker w (.blocked true)) :=
      hinv.workerTo hasleep rfl rfl ⟨rfl, rfl, rfl⟩ rfl rfl
    have hgrows : ((s.atWorker w (.blocked true)).caller i).grows = false := by
      show (s.caller i).grows = false
      rw [hcaller]
      rfl
    exact hnotified.callerTo rfl rfl ⟨rfl, rfl, rfl⟩ hgrows rfl
  | resizeRefused hcaller hflag => exact absurd (hflag.symm.trans hinv.runs) (by simp)
  | resizeUp hcaller hflag hle =>
    refine ⟨hflag, ?_, hle, fun hstill => ?_, hinv.stays⟩
    · exact forall_update (P := fun _ pc => pc.terminates = false) hinv.caller rfl
    · -- this caller is creating workers now
      have hgrows := hstill.1 i
      simp [PoolState.atCaller, CallerPc.grows] at hgrows
  | resizeDown hcaller hflag hgt =>
    exact absurd (Nat.le_trans hinv.fits (hup _ hcaller)) (Nat.not_le_of_lt hgt)
  | create hcaller hmore =>
    refine ⟨hinv.runs, hinv.caller, hmore, fun hstill => ?_, ?_⟩
    · have hgrows := hstill.1 i
      simp [PoolState.create, hcaller, CallerPc.grows] at hgrows
    · exact forall_concat (P := fun _ (pc : WorkerPc τ) => pc.leaves = false) hinv.stays rfl
  | resized hcaller hall =>
    refine ⟨hinv.runs, ?_, hinv.fits, fun _ => hall rfl, hinv.stays⟩
    exact forall_update (P := fun _ pc => pc.terminates = false) hinv.caller rfl
  | terminateJoin hcaller | terminate hcaller | terminateBlock hcaller | startJoin hcaller
  | join hcaller | joined hcaller => exact absurd (by rw [hcaller]; rfl) hnot

omit [DecidableEq ι] in
theorem WorkerMove.grown (h : WorkerMove policy s w true s' es)
    (hinv : Grown s) : Grown s' := by
  cases h with
  | @lock pc pc' hw hlock =>
    have hsame : pc.grows = false ∧ pc'.leaves = pc.leaves := by
      cases pc with
      | fetch | destruct | died => cases hlock; exact ⟨rfl, rfl⟩
      | _ => cases hlock
    exact hinv.workerTo hw rfl rfl ⟨rfl, rfl, rfl⟩ hsame.1 (hsame.2.trans (hinv.stays w pc hw))
  | wake hw | stay hw | take hw | returned hw | threw hw | exit hw =>
    exact hinv.workerTo hw rfl rfl ⟨rfl, rfl, rfl⟩ rfl rfl
  | sleep hw => exact hinv.notifyAllIdle.workerTo hw rfl rfl ⟨rfl, rfl, rfl⟩ rfl rfl
  | leave hw hpc hmany => exact absurd hinv.fits (Nat.not_le_of_lt hmany)
  | destructed hw => exact absurd (hinv.stays w _ hw) (by simp [WorkerPc.leaves])
  | diedTerminating hw hflag => exact absurd (hflag.symm.trans hinv.runs) (by simp)
  | replace hw hflag =>
    refine ⟨hflag, hinv.notifyAllIdle.caller, Nat.le_succ _, fun hstill => ?_, ?_⟩
    · have hgrows := hstill.2 w .replacing
        (by simp [PoolState.atWorker, PoolState.discount, PoolState.notifyAllIdle,
          (List.getElem?_eq_some_iff.mp hw).1])
      cases hgrows
    · exact forall_set (P := fun _ (pc : WorkerPc τ) => pc.leaves = false) hinv.stays rfl
  | create hw hmore =>
    refine ⟨hinv.runs, hinv.caller, hmore, fun hstill => ?_, ?_⟩
    · have hlt := (List.getElem?_eq_some_iff.mp hw).1
      have hgrows := hstill.2 w .replacing
        (by rw [PoolState.create, List.getElem?_append_left hlt]; exact hw)
      cases hgrows
    · exact forall_concat (P := fun _ (pc : WorkerPc τ) => pc.leaves = false) hinv.stays rfl
  | replaced hw hall =>
    refine ⟨hinv.runs, hinv.caller, hinv.fits, fun _ => hall rfl, ?_⟩
    exact forall_set (P := fun _ (pc : WorkerPc τ) => pc.leaves = false) hinv.stays rfl

theorem OtherMove.grown (h : OtherMove s a s') (hgrowing : growing s a = true) (hinv : Grown s) :
    Grown s' := by
  cases h with
  | call hcaller call =>
    refine hinv.callerTo rfl rfl ⟨rfl, rfl, rfl⟩ (by rw [hcaller]; rfl) ?_
    cases call with
    | terminateAllWorkers join => cases hgrowing
    | _ => rfl
  | timeout hcaller =>
    exact hinv.callerTo rfl rfl ⟨rfl, rfl, rfl⟩ (by rw [hcaller]; rfl) rfl
  | spuriousCaller i =>
    refine ⟨hinv.runs, ?_, hinv.fits, fun hstill => ?_, hinv.stays⟩
    · exact forall_update (P := fun _ pc => pc.terminates = false) hinv.caller
        ((CallerPc.notified_terminates _).trans (hinv.caller i))
    · refine hinv.full ⟨fun j => ?_, hstill.2⟩
      have hsame := hstill.1 j
      by_cases hj : j = i
      · rw [hj] at hsame ⊢
        simpa [PoolState.atCaller, CallerPc.notified_grows] using hsame
      · simpa [PoolState.atCaller, hj] using hsame
  | @spuriousWorker w pc hw =>
    refine ⟨hinv.runs, hinv.caller, hinv.fits, fun hstill => ?_, ?_⟩
    · have hlt := (List.getElem?_eq_some_iff.mp hw).1
      have hgrows : pc.grows = false := by
        rw [← WorkerPc.notified_grows]
        exact hstill.2 w pc.notified (by simp [PoolState.atWorker, hlt])
      exact hinv.full ⟨hstill.1, forall_of_set hw hgrows hstill.2⟩
    · exact forall_set (P := fun _ (pc : WorkerPc τ) => pc.leaves = false) hinv.stays
        ((WorkerPc.notified_leaves pc).trans (hinv.stays w pc hw))

/-! ## What was asked for -/

/-- The size a call asks for. -/
def Call.asks : Call τ → Option Nat
  | .resize workerCount => some workerCount
  | _ => none

/-- The size that a caller has still to set as the target. -/
def CallerPc.asks : CallerPc τ → Option Nat
  | .resize workerCount | .resizeStart workerCount => some workerCount
  | _ => none

/-- The sizes that an action asks for: one or none. -/
def Act.asks : Act τ ι → List Nat
  | .call _ c => c.asks.toList
  | _ => []

/-- The sizes that a run has called `resize` with. -/
def sizesAsked (as : List (Act τ ι)) : List Nat := as.flatMap Act.asks

/-- The target is the largest of the sizes `ks`, but for those still to be set. -/
structure Asked (target : Nat) (caller : ι → CallerPc τ) (ks : List Nat) : Prop where
  attained : target = 0 ∨ target ∈ ks
  source : ∀ i k, (caller i).asks = some k → k ∈ ks
  bound : ∀ k ∈ ks, k ≤ target ∨ ∃ i, (caller i).asks = some k

section
variable {target : Nat} {caller caller' : ι → CallerPc τ} {ks : List Nat} {pc : CallerPc τ}

omit [DecidableEq ι] in
theorem Asked.same (h : Asked target caller ks) (hsame : ∀ i, (caller' i).asks = (caller i).asks) :
    Asked target caller' ks where
  attained := h.attained
  source := fun i k hk => h.source i k (by rw [← hsame]; exact hk)
  bound := by
    intro k hk
    refine (h.bound k hk).imp_right ?_
    rintro ⟨i, hi⟩
    exact ⟨i, by rw [hsame]; exact hi⟩

theorem Asked.callerTo (h : Asked target caller ks) (hpc : pc.asks = (caller i).asks) :
    Asked target (Function.update caller i pc) ks :=
  h.same (forall_update (P := fun j pc => pc.asks = (caller j).asks) (fun _ => rfl) hpc)

/-- A size becomes the target. -/
theorem Asked.settle {k : Nat} (h : Asked target caller ks) (hi : (caller i).asks = some k)
    (hpc : pc.asks = none) (hle : target ≤ k) : Asked k (Function.update caller i pc) ks where
  attained := .inr (h.source i k hi)
  source := forall_update (P := fun _ pc => ∀ k, pc.asks = some k → k ∈ ks) h.source
    fun k hk => absurd (hk.symm.trans hpc) (by simp)
  bound := by
    intro k' hk'
    rcases h.bound k' hk' with hle' | ⟨j, hj⟩
    · exact .inl (Nat.le_trans hle' hle)
    · by_cases hji : j = i
      · subst hji
        cases hi.symm.trans hj
        exact .inl (Nat.le_refl _)
      · exact .inr ⟨j, by rw [Function.update_of_ne hji]; exact hj⟩

/-- One more size is asked for. -/
theorem Asked.call {call : Call τ} (h : Asked target caller ks) (hi : caller i = .idle) :
    Asked target (Function.update caller i call.start) (ks ++ call.asks.toList) where
  attained := h.attained.imp_right (List.mem_append_left _)
  source := by
    refine forall_update (P := fun _ pc => ∀ k, pc.asks = some k → k ∈ ks ++ call.asks.toList)
      (fun j k hk => List.mem_append_left _ (h.source j k hk)) fun k hk => ?_
    have hcall : call.asks = some k := by cases call <;> exact hk
    rw [hcall]
    exact List.mem_append_right _ (List.mem_singleton.mpr rfl)
  bound := by
    intro k hk
    rcases List.mem_append.mp hk with hk | hk
    · refine (h.bound k hk).imp_right ?_
      rintro ⟨j, hj⟩
      have hne : j ≠ i := fun heq => by rw [heq, hi] at hj; cases hj
      exact ⟨j, by rw [Function.update_of_ne hne]; exact hj⟩
    · have hcall : call.asks = some k := Option.mem_toList.mp hk
      refine .inr ⟨i, ?_⟩
      rw [Function.update_self]
      cases call <;> exact hcall

end

theorem CallerPc.afterLock_asks {pc pc' : CallerPc τ} (h : pc.afterLock = some pc') :
    pc'.asks = pc.asks := by
  cases pc with
  | waitBlocked timed threshold notified | terminateBlocked notified =>
    cases notified <;> cases h; rfl
  | _ => cases h <;> rfl

theorem CallerPc.notified_asks (pc : CallerPc τ) : pc.notified.asks = pc.asks := by
  cases pc <;> rfl

omit [DecidableEq ι] in
/-- While a worker holds the monitor, only it can be creating workers. -/
theorem LockInv.still (h : LockInv s) {pc : WorkerPc τ} (hw : s.workers[w]? = some pc)
    (hlocked : pc.locked = true) (hnot : pc.grows = false) : Still s := by
  have hmonitor := (h.worker w pc hw).mp hlocked
  constructor
  · intro i
    cases hpc : s.caller i with
    | resizing =>
      have hheld := (h.caller i).mp (by rw [hpc]; rfl)
      rw [hmonitor] at hheld
      cases hheld
    | _ => rfl
  · intro v pcv hv
    cases pcv with
    | replacing =>
      have hheld := (h.worker v _ hv).mp rfl
      rw [hmonitor] at hheld
      cases hheld
      cases hw.symm.trans hv
      exact hnot
    | _ => rfl

section
variable {ks : List Nat}

theorem CallerMove.asked (h : CallerMove policy s i true s' es)
    (hup : ∀ workerCount, s.caller i = .resizeStart workerCount →
      s.targetWorkerCount ≤ workerCount)
    (hinv : Grown s) (hasked : Asked s.targetWorkerCount s.caller ks) :
    Asked s'.targetWorkerCount s'.caller ks := by
  have hnot : (s.caller i).terminates ≠ true :=
    fun h => absurd (h.symm.trans (hinv.caller i)) (by simp)
  cases h with
  | lock hlock => exact hasked.callerTo (CallerPc.afterLock_asks hlock)
  | refused hcaller | push hcaller | pushNotify hcaller | cleared hcaller | waitBlock hcaller
  | waited hcaller | gaveUp hcaller | resized hcaller =>
    exact hasked.callerTo (by rw [hcaller]; rfl)
  | resizeRefused hcaller hflag => exact absurd (hflag.symm.trans hinv.runs) (by simp)
  | resizeUp hcaller => exact hasked.settle (by rw [hcaller]; rfl) rfl (hup _ hcaller)
  | resizeDown hcaller hflag hgt =>
    exact absurd (Nat.le_trans hinv.fits (hup _ hcaller)) (Nat.not_le_of_lt hgt)
  | create => exact hasked
  | terminateJoin hcaller | terminate hcaller | terminateBlock hcaller | startJoin hcaller
  | join hcaller | joined hcaller => exact absurd (by rw [hcaller]; rfl) hnot

omit [DecidableEq ι] in
theorem WorkerMove.asked (h : WorkerMove policy s w true s' es) (hlocks : LockInv s)
    (hcount : CountInv s) (hinv : Grown s) (hasked : Asked s.targetWorkerCount s.caller ks) :
    Asked s'.targetWorkerCount s'.caller ks := by
  have hnotified : Asked s.targetWorkerCount (fun i => (s.caller i).notified) ks :=
    hasked.same fun i => CallerPc.notified_asks _
  cases h with
  | lock | wake | leave | stay | take | returned | threw | create | replaced | exit => exact hasked
  | sleep | destructed | diedTerminating => exact hnotified
  | replace hw =>
    -- the pool was full, so that the target stays what it was
    have hfull := hinv.full (hlocks.still hw rfl rfl)
    have hpos : 0 < s.workerCount := hcount.count_pos hw rfl
    have hsame : s.workerCount - 1 + 1 = s.targetWorkerCount := by
      have hfits := hinv.fits
      omega
    show Asked (s.workerCount - 1 + 1) _ ks
    rw [hsame]
    exact hnotified

theorem OtherMove.asked (h : OtherMove s a s') (hasked : Asked s.targetWorkerCount s.caller ks) :
    Asked s'.targetWorkerCount s'.caller (ks ++ a.asks) := by
  cases h with
  | call hcaller call => exact hasked.call hcaller
  | timeout hcaller =>
    show Asked _ _ (ks ++ [])
    rw [List.append_nil]
    exact hasked.callerTo (by rw [hcaller]; rfl)
  | spuriousCaller i =>
    show Asked _ _ (ks ++ [])
    rw [List.append_nil]
    exact hasked.callerTo (CallerPc.notified_asks _)
  | spuriousWorker =>
    show Asked _ _ (ks ++ [])
    rw [List.append_nil]
    exact hasked

end

/-- Everything a step can do that does not make the pool smaller. -/
theorem growing_cases (hgrowing : growing s a = true) (h : step policy s a = some s') :
    (∃ i, CallerMove policy s i true s' (events policy s a) ∧ a.asks = [] ∧
        ∀ workerCount, s.caller i = .resizeStart workerCount →
          s.targetWorkerCount ≤ workerCount) ∨
      (∃ w, WorkerMove policy s w true s' (events policy s a) ∧ a.asks = []) ∨
      OtherMove s a s' := by
  obtain ⟨i, created, hcaller, chosen, rfl⟩ | ⟨w, created, hworker, ha⟩ | ⟨hother, -⟩ :=
    step_cases h
  · obtain ⟨hcreated, hup⟩ := Bool.and_eq_true_iff.mp hgrowing
    subst hcreated
    refine .inl ⟨i, hcaller, rfl, fun workerCount hstart => ?_⟩
    rw [hstart] at hup
    exact of_decide_eq_true hup
  · refine .inr (.inl ⟨w, ?_⟩)
    rcases ha with rfl | ⟨rfl, rfl⟩
    · have hcreated : created = true := hgrowing
      subst hcreated
      exact ⟨hworker, rfl⟩
    · exact ⟨hworker, rfl⟩
  · exact .inr (.inr hother)

/-- What holds of a pool that is never made smaller, when the sizes `ks` have
been asked for. -/
def GrownTo (s : PoolState σ τ ι) (ks : List Nat) : Prop :=
  Grown s ∧ Asked s.targetWorkerCount s.caller ks

omit [DecidableEq ι] in
theorem grownTo_init : GrownTo (PoolState.init policy : PoolState σ τ ι) [] :=
  ⟨⟨rfl, fun i => rfl, Nat.le_refl 0, fun _ => Nat.le_refl 0, fun w pc hw => (by cases hw)⟩,
    .inl rfl, fun i k hk => (by cases hk), fun k hk => (by cases hk)⟩

theorem grownTo_step {ks : List Nat} (h : GrownTo s ks)
    (hreach : Reachable (step policy) (PoolState.init policy) s) (hgrowing : growing s a = true)
    (hstep : step policy s a = some s') : GrownTo s' (ks ++ a.asks) := by
  obtain ⟨hgrown, hasked⟩ := h
  obtain ⟨i, hcaller, hnone, hup⟩ | ⟨w, hworker, hnone⟩ | hother := growing_cases hgrowing hstep
  · rw [hnone, List.append_nil]
    exact ⟨hcaller.grown hup hgrown, hcaller.asked hup hgrown hasked⟩
  · rw [hnone, List.append_nil]
    exact ⟨hworker.grown hgrown,
      hworker.asked (reachable_lockInv hreach) (reachable_countInv hreach) hgrown hasked⟩
  · exact ⟨hother.grown hgrowing hgrown, hother.asked hasked⟩

theorem grownTo_run {as : List (Act τ ι)}
    (hmeets : Meets (step policy) (fun s a => growing s a = true) (PoolState.init policy) as)
    (hrun : run (step policy) (PoolState.init policy) as = some s) :
    GrownTo s (sizesAsked as) := by
  rw [sizesAsked, ← history_of_actions Act.asks hrun]
  exact hmeets.history_invariant grownTo_init
    (fun _ _ _ _ hreach hinv hgrowing hstep => grownTo_step hinv hreach hgrowing hstep) hrun

/-! ## A pool that has grown, at rest -/

/-- A worker that rests has not left if and only if it sleeps. -/
theorem alive_of_rest {pc : WorkerPc τ} (h : pc = .blocked false ∨ pc = .finished) :
    pc.alive = pc.asleep := by
  rcases h with rfl | rfl <;> rfl

/-- A pool that is never made smaller, where no thread can take a step. -/
theorem grownTo_rests {ks : List Nat} (h : GrownTo s ks)
    (hreach : Reachable (step policy) (PoolState.init policy) s)
    (hstuck : Stuck (step policy) Act.ofThread s) :
    s.workers.countP WorkerPc.asleep = ks.foldr max 0 ∧
      (0 < ks.foldr max 0 → policy.tasks s.scheduler = 0 ∧ ∀ i, s.caller i = .idle) := by
  obtain ⟨hgrown, hasked⟩ := h
  have hworkers := stuck_workers hreach hstuck
  have hcallers := stuck_caller hstuck (reachable_joinInv hreach)
  have hfree := stuck_free hstuck (reachable_lockInv hreach) (reachable_joinInv hreach)
  have hcaller : ∀ i, (s.caller i).grows = false ∧ (s.caller i).asks = none := by
    intro i
    rcases hcallers i with ⟨hheld, -⟩ | h | ⟨timed, threshold, h⟩ | h
    · exact absurd hfree hheld
    all_goals rw [h]; exact ⟨rfl, rfl⟩
  have hstill : Still s := by
    refine ⟨fun i => (hcaller i).1, fun v pc hv => ?_⟩
    rcases hworkers pc (List.mem_of_getElem? hv) with rfl | rfl <;> rfl
  have hasleep : s.workers.countP WorkerPc.asleep = s.targetWorkerCount := by
    rw [Nat.le_antisymm (hgrown.full hstill) hgrown.fits, (reachable_countInv hreach).count]
    exact List.countP_congr fun pc hpc => by rw [alive_of_rest (hworkers pc hpc)]
  have htarget : s.targetWorkerCount = ks.foldr max 0 := by
    refine Nat.le_antisymm ?_ (List.max_le_of_forall_le _ _ fun k hk => ?_)
    · rcases hasked.attained with hzero | hmem
      · rw [hzero]
        exact Nat.zero_le _
      · exact List.le_max_of_le hmem (Nat.le_refl _)
    · rcases hasked.bound k hk with hle | ⟨i, hi⟩
      · exact hle
      · exact absurd (hi.symm.trans (hcaller i).2) (by simp)
  refine ⟨hasleep.trans htarget, fun hpos => ?_⟩
  rw [← htarget, ← hasleep] at hpos
  obtain ⟨pc, hpc, hpcasleep⟩ := List.countP_pos_iff.mp hpos
  rcases hworkers pc hpc with rfl | rfl
  · exact stuck_done hreach hstuck hpc
  · cases hpcasleep

/-- **A pool that is never made smaller keeps its size and finishes its work.**
In every run of a process in which no `resize` lowers the target, threads can be
created, nobody terminates the pool, and tasks throw `boost::thread_interrupted`
if anything: where no thread can take a step, the process is still running, as
many workers sleep as the largest size that was asked for, and if that is not
zero, no task is pending and every call has returned. -/
theorem grown_pool_rests {as : List (ProcessAct τ ι)} {p : Process σ τ ι}
    (hmeets : Meets (processStep policy) (fun p a => ProcessAct.meets growing p a = true)
      (.running (PoolState.init policy)) as)
    (hcaught : ∀ w, .uncaught w ∉ as)
    (hrun : run (processStep policy) (.running (PoolState.init policy)) as = some p)
    (hstuck : Stuck (processStep policy) ProcessAct.ofThread p) :
    ∃ s, p = .running s ∧
      s.workers.countP WorkerPc.asleep = (sizesAsked (poolActs as)).foldr max 0 ∧
      (0 < (sizesAsked (poolActs as)).foldr max 0 →
        policy.tasks s.scheduler = 0 ∧ ∀ i, s.caller i = .idle) := by
  obtain ⟨s, rfl, hpool⟩ := process_run hcaught hrun
  have hgrown := grownTo_run (process_meets hcaught hmeets) hpool
  exact ⟨s, rfl, grownTo_rests hgrown ⟨_, hpool⟩ (process_stuck hstuck)⟩

/-- A pool with one worker, whose thread its first task ends. -/
def throwingRun : List (ProcessAct Nat Unit) :=
  let caller := .caller () none true
  let worker := fun w => .worker w true
  ([.call () (.resize 1), caller, caller, caller, caller] ++
    [.call () (.schedule 7), caller, caller, worker 0, worker 0, worker 0, .throws 0] ++
    -- the worker that died is replaced by another one, which goes to sleep
    [worker 0, worker 0, worker 0, worker 0, worker 0, worker 1, worker 1, worker 1]).map .pool

/-- After a task has thrown, there is still one worker. -/
theorem grown_pool_rests_throwing :
    ∃ s, run (processStep fifoScheduler) (.running (PoolState.init fifoScheduler)) throwingRun
        = some (.running s) ∧
      s.workers = [.finished, .blocked false] ∧ s.workers.countP WorkerPc.asleep = 1 ∧
      fifoScheduler.tasks s.scheduler = 0 ∧ ∀ i, s.caller i = .idle := by
  have hmeets : Meets (processStep fifoScheduler)
      (fun p a => ProcessAct.meets growing p a = true)
      (.running (PoolState.init fifoScheduler)) throwingRun := by decide
  have hcaught : ∀ w, ProcessAct.uncaught w ∉ throwingRun := by simp [throwingRun]
  have hfields : ∃ s, run (processStep fifoScheduler) (.running (PoolState.init fifoScheduler))
      throwingRun = some (.running s) ∧ s.workers = [.finished, .blocked false] ∧
        s.caller () = .idle := ⟨_, rfl, rfl, rfl⟩
  obtain ⟨s, hs, hworkers, hcaller⟩ := hfields
  have hstuck : Stuck (processStep fifoScheduler) ProcessAct.ofThread (.running s) := by
    have hpool : Stuck (step fifoScheduler) Act.ofThread s := by
      refine rest_of_idle (fun i => hcaller) fun pc hpc => ?_
      rw [hworkers] at hpc
      simpa [or_comm] using hpc
    intro a ha
    cases a with
    | pool a => exact Option.map_eq_none_iff.mpr (hpool a ha)
    | uncaught w => exact Option.map_eq_none_iff.mpr (hpool (.throws w) trivial)
  obtain ⟨t, ht, hasleep, hdone⟩ := grown_pool_rests hmeets hcaught hs hstuck
  cases ht
  exact ⟨s, hs, hworkers, hasleep, hdone (by decide)⟩

/-! ## A pool that loses its workers -/

/-- A pool that has nothing to do and that nobody calls. -/
def idlePool (policy : SchedulingPolicy σ τ) (workerCount targetWorkerCount activeWorkerCount : Nat)
    (workers : List (WorkerPc τ)) : PoolState σ τ ι where
  workerCount := workerCount
  targetWorkerCount := targetWorkerCount
  activeWorkerCount := activeWorkerCount
  terminateAllWorkers := false
  scheduler := policy.clear
  terminatedWorkers := []
  monitor := none
  workers := workers
  caller := fun _ => .idle

/-- Caller `i` is creating the workers of such a pool, and has created `j`. -/
def fillingPool (policy : SchedulingPolicy σ τ) (i : ι) (n j : Nat) : PoolState σ τ ι :=
  { (idlePool policy j n j (List.replicate j .fetch) : PoolState σ τ ι) with
    monitor := some (.caller i)
    caller := Function.update (fun _ => .idle) i .resizing }

omit [DecidableEq ι] in
theorem empty_clear (policy : SchedulingPolicy σ τ) : policy.empty policy.clear = true :=
  (policy.empty_iff _).mpr policy.tasks_clear

/-- A worker or a caller goes on in what it does, and a thread can be created
where a worker is missing. -/
def Act.goesOn : Act τ ι → Prop
  | .caller _ _ created | .worker _ created => created = true
  | _ => False

section
variable {count target active : Nat} {workers : List (WorkerPc τ)}

/-- A new worker finds nothing to do and goes to sleep. -/
theorem idlePool_sleep (hw : workers[w]? = some .fetch) (hfits : count ≤ target) :
    ReachableBy (step policy) Act.goesOn
      (idlePool policy count target active workers : PoolState σ τ ι)
      (idlePool policy count target (active - 1) (workers.set w (.blocked false))) := by
  obtain ⟨hlt, hget⟩ := List.getElem?_eq_some_iff.mp hw
  refine ⟨[.worker w true, .worker w true, .worker w true], by simp [Act.goesOn], ?_⟩
  simp [run, step, workerStep, idlePool, hget, PoolState.lockWorker, PoolState.atWorker, hlt,
    PoolState.unlockWorker, PoolState.notifyAllIdle, empty_clear, Nat.not_lt_of_le hfits,
    CallerPc.notified]

/-- A worker wakes up and finds the pool too large. -/
theorem idlePool_leave (hw : workers[w]? = some (.blocked true)) (hmany : target < count) :
    ReachableBy (step policy) Act.goesOn
      (idlePool policy count target active workers : PoolState σ τ ι)
      (idlePool policy count target (active + 1) (workers.set w .destruct)) := by
  obtain ⟨hlt, hget⟩ := List.getElem?_eq_some_iff.mp hw
  refine ⟨[.worker w true, .worker w true], by simp [Act.goesOn], ?_⟩
  simp [run, step, workerStep, idlePool, hget, PoolState.lockWorker, PoolState.atWorker, hlt,
    PoolState.unlockWorker, empty_clear, hmany]

/-- A worker that leaves is discounted, and ends. -/
theorem idlePool_end (hw : workers[w]? = some .destruct) :
    ReachableBy (step policy) Act.goesOn
      (idlePool policy count target active workers : PoolState σ τ ι)
      (idlePool policy (count - 1) target (active - 1) (workers.set w .finished)) := by
  obtain ⟨hlt, hget⟩ := List.getElem?_eq_some_iff.mp hw
  refine ⟨[.worker w true, .worker w true, .worker w true], by simp [Act.goesOn], ?_⟩
  simp [run, step, workerStep, idlePool, hget, PoolState.lockWorker, PoolState.atWorker, hlt,
    PoolState.unlockWorker, PoolState.discount, PoolState.notifyAllIdle, CallerPc.notified]

/-- One worker after the other goes from `pc` to `pc'`. -/
theorem idlePool_sweep {pc pc' : WorkerPc τ} {n : Nat} {counts actives : Nat → Nat}
    (h : ∀ j, j < n → ∀ workers : List (WorkerPc τ), workers[j]? = some pc →
      ReachableBy (step policy) Act.goesOn
        (idlePool policy (counts j) target (actives j) workers : PoolState σ τ ι)
        (idlePool policy (counts (j + 1)) target (actives (j + 1)) (workers.set j pc'))) :
    ReachableBy (step policy) Act.goesOn
      (idlePool policy (counts 0) target (actives 0) (List.replicate n pc) : PoolState σ τ ι)
      (idlePool policy (counts n) target (actives n) (List.replicate n pc')) := by
  have hround : ∀ j, j < n → ReachableBy (step policy) Act.goesOn
      (idlePool policy (counts j) target (actives j) (swept pc pc' n j) : PoolState σ τ ι)
      (idlePool policy (counts (j + 1)) target (actives (j + 1)) (swept pc pc' n (j + 1))) := by
    intro j hj
    rw [← swept_set pc pc' hj]
    exact h j hj (swept pc pc' n j) (swept_getElem? pc pc' hj)
  rw [← swept_zero pc pc', ← swept_all pc pc' n]
  exact @ReachableBy.iterate _ _ (step policy) Act.goesOn
    (fun j => idlePool policy (counts j) target (actives j) (swept pc pc' n j)) n hround

/-- `resize` lowers the target and wakes up whoever sleeps. -/
theorem idlePool_shrink (i : ι) {k : Nat} (hk : k < count) :
    ∃ s, step policy (idlePool policy count target active workers : PoolState σ τ ι)
        (.call i (.resize k)) = some s ∧
      ReachableBy (step policy) Act.goesOn s
        (idlePool policy count k active (workers.map WorkerPc.notified)) := by
  refine ⟨_, rfl, [.caller i none true, .caller i none true], by simp [Act.goesOn], ?_⟩
  simp [run, step, callerStep, idlePool, PoolState.lockCaller, PoolState.atCaller,
    Call.start, PoolState.unlockCaller, PoolState.notifyAllTasks, Nat.not_le_of_lt hk]

end

theorem idlePool_grow (i : ι) (n : Nat) :
    Reachable (step policy) (PoolState.init policy)
      (idlePool policy n n n (List.replicate n .fetch) : PoolState σ τ ι) := by
  have hstart : Reachable (step policy) (PoolState.init policy) (fillingPool policy i n 0) := by
    refine ⟨[.call i (.resize n), .caller i none true, .caller i none true], ?_⟩
    simp [run, step, callStep, callerStep, fillingPool, idlePool, PoolState.init,
      PoolState.lockCaller, PoolState.atCaller, Call.start]
  have hround : ∀ j, j < n → ReachableBy (step policy) Act.goesOn (fillingPool policy i n j)
      (fillingPool policy i n (j + 1)) := by
    intro j hj
    refine ⟨[.caller i none true], by simp [Act.goesOn], ?_⟩
    simp [run, step, callerStep, fillingPool, idlePool, PoolState.create, hj,
      ← List.replicate_succ']
  have hend : Reachable (step policy) (fillingPool policy i n n)
      (idlePool policy n n n (List.replicate n .fetch)) := by
    refine ⟨[.caller i none true], ?_⟩
    simp [run, step, callerStep, fillingPool, idlePool, PoolState.unlockCaller,
      PoolState.atCaller]
  exact (hstart.trans (ReachableBy.iterate hround).reachable).trans hend

/-- Every worker that is left has ended, and nobody resizes the pool. -/
structure Lost (s : PoolState σ τ ι) : Prop where
  ended : ∀ pc ∈ s.workers, pc = .finished
  caller : ∀ i, (s.caller i).grows = false ∧ (s.caller i).asks = none

omit [DecidableEq ι] in
theorem Lost.not_at (h : Lost s) {pc : WorkerPc τ} (hpc : pc ≠ .finished) :
    s.workers[w]? ≠ some pc :=
  fun hw => hpc (h.ended pc (List.mem_of_getElem? hw))

/-- A caller goes on, and does not resize the pool. -/
theorem Lost.callerTo (h : Lost s) {pc : CallerPc τ} (hworkers : s'.workers = s.workers)
    (hcaller : s'.caller = Function.update s.caller i pc) (hgrows : pc.grows = false)
    (hasks : pc.asks = none) : Lost s' where
  ended := by rw [hworkers]; exact h.ended
  caller := by
    rw [hcaller]
    exact forall_update (P := fun _ pc => pc.grows = false ∧ pc.asks = none) h.caller
      ⟨hgrows, hasks⟩

theorem CallerMove.lost {created : Bool} (h : CallerMove policy s i created s' es)
    (hinv : Lost s) : Lost s' ∧ starts es = [] := by
  have hnotified : s.workers.map WorkerPc.notified = s.workers :=
    (List.map_congr_left fun pc hpc => by rw [hinv.ended pc hpc]; rfl).trans (List.map_id _)
  have hpc := hinv.caller i
  cases h with
  | lock hlock =>
    exact ⟨hinv.callerTo rfl rfl (CallerPc.afterLock_grows hlock)
      ((CallerPc.afterLock_asks hlock).trans hpc.2), rfl⟩
  | pushNotify hcaller hpush hasleep => exact absurd hasleep (hinv.not_at (by simp))
  | refused | push | cleared | waitBlock | waited | gaveUp | resizeRefused | resized
  | terminateBlock | startJoin | join | joined => exact ⟨hinv.callerTo rfl rfl rfl rfl, rfl⟩
  | resizeUp hcaller | resizeDown hcaller => rw [hcaller] at hpc; cases hpc.2
  | create hcaller => rw [hcaller] at hpc; cases hpc.1
  | terminateJoin | terminate => exact ⟨hinv.callerTo hnotified rfl rfl rfl, rfl⟩

omit [DecidableEq ι] in
/-- No worker can move. -/
theorem WorkerMove.lost {created : Bool} (h : WorkerMove policy s w created s' es)
    (hinv : Lost s) : False := by
  cases h with
  | lock hw hlock => exact hinv.not_at (fun h => by rw [h] at hlock; cases hlock) hw
  | leave hw hpc => exact hinv.not_at (by rcases hpc with rfl | rfl <;> simp) hw
  | wake hw | stay hw | sleep hw | take hw | returned hw | threw hw | destructed hw
  | diedTerminating hw | replace hw | create hw | replaced hw | exit hw =>
    exact hinv.not_at (by simp) hw

theorem OtherMove.lost (h : OtherMove s a s') (hasks : a.asks = []) (hinv : Lost s) : Lost s' := by
  cases h with
  | call hcaller call =>
    have hnone : call.asks = none := by simpa [Act.asks] using hasks
    exact hinv.callerTo rfl rfl (by cases call <;> rfl)
      (by cases call <;> first | rfl | cases hnone)
  | timeout => exact hinv.callerTo rfl rfl rfl rfl
  | spuriousCaller i =>
    obtain ⟨hgrows, hnone⟩ := hinv.caller i
    exact hinv.callerTo rfl rfl ((CallerPc.notified_grows _).trans hgrows)
      ((CallerPc.notified_asks _).trans hnone)
  | @spuriousWorker w pc hw =>
    refine ⟨fun pc' hmem => ?_, hinv.caller⟩
    rcases List.mem_or_eq_of_mem_set hmem with hmem | rfl
    · exact hinv.ended pc' hmem
    · rw [hinv.ended pc (List.mem_of_getElem? hw)]
      rfl

/-- A pool without workers stays without. -/
theorem Lost.step (h : Lost s) (hasks : a.asks = []) (hstep : step policy s a = some s') :
    Lost s' ∧ starts (events policy s a) = [] := by
  obtain ⟨i, created, hcaller, -⟩ | ⟨w, created, hworker, -⟩ | ⟨hother, hnone⟩ := step_cases hstep
  · exact hcaller.lost h
  · exact (hworker.lost h).elim
  · rw [hnone]
    exact ⟨hother.lost hasks h, rfl⟩

/-- A pool of `n` workers, all of them asleep, that nobody calls. -/
def asleepPool (policy : SchedulingPolicy σ τ) (n : Nat) : PoolState σ τ ι :=
  idlePool policy n n 0 (List.replicate n (.blocked false))

/-- A pool whose `n` workers have all ended, though its target is `k`. -/
def lostPool (policy : SchedulingPolicy σ τ) (n k : Nat) : PoolState σ τ ι :=
  idlePool policy 0 k 0 (List.replicate n .finished)

theorem reachable_asleep (policy : SchedulingPolicy σ τ) (i : ι) (n : Nat) :
    Reachable (step policy) (PoolState.init policy) (asleepPool policy n : PoolState σ τ ι) := by
  have hsleep := @idlePool_sweep σ τ ι policy _ n .fetch (.blocked false) n (fun _ => n)
    (fun j => n - j) fun j _ workers hw => idlePool_sleep hw (Nat.le_refl n)
  rw [Nat.sub_self] at hsleep
  exact (idlePool_grow i n).trans hsleep.reachable

/-- Every worker wakes up and finds the pool too large, and only then are they
discounted. -/
theorem asleepPool_shrink (i : ι) {n k : Nat} (hk : k < n) :
    ∃ s, step policy (asleepPool policy n : PoolState σ τ ι) (.call i (.resize k)) = some s ∧
      ReachableBy (step policy) Act.goesOn s (lostPool policy n k) := by
  obtain ⟨s, hs, hshrink⟩ :=
    @idlePool_shrink σ τ ι policy _ n n 0 (List.replicate n (.blocked false)) i k hk
  rw [List.map_replicate] at hshrink
  have hleave := @idlePool_sweep σ τ ι policy _ k (.blocked true) .destruct n (fun _ => n)
    (fun j => j) fun j _ workers hw => idlePool_leave hw hk
  have hend := @idlePool_sweep σ τ ι policy _ k .destruct .finished n (fun j => n - j)
    (fun j => n - j) fun j _ workers hw => idlePool_end hw
  rw [Nat.sub_self] at hend
  exact ⟨s, hs, (hshrink.trans hleave).trans hend⟩

/-- **One `resize` can cost a pool all of its workers.** For any scheduling
policy and all `k < n`: a pool of `n` workers comes to be asleep with nobody
calling it; from there, one call of `resize` to `k` and steps of the threads
alone, with a thread for every new worker, can lead to a pool without workers,
though its target is `k`; and unless `resize` is called again, no task is
started in any continuation. -/
theorem shrunk_pool_loses_all (policy : SchedulingPolicy σ τ) (i : ι) {n k : Nat} (hk : k < n) :
    Reachable (step policy) (PoolState.init policy) (asleepPool policy n : PoolState σ τ ι) ∧
      (∃ as, (∀ a ∈ as, a.goesOn) ∧
        run (step policy) (asleepPool policy n) (.call i (.resize k) :: as)
          = some (lostPool policy n k)) ∧
      ∀ (bs : List (Act τ ι)) (s' : PoolState σ τ ι), (∀ a ∈ bs, a.asks = []) →
        run (step policy) (lostPool policy n k) bs = some s' →
        starts (history (step policy) (events policy) (lostPool policy n k) bs) = [] := by
  obtain ⟨s, hs, as, hacts, hrun⟩ := @asleepPool_shrink σ τ ι policy _ i n k hk
  refine ⟨reachable_asleep policy i n, ⟨as, hacts, ?_⟩, fun bs s' hasks hrun' => ?_⟩
  · rw [run, hs]
    exact hrun
  · have hlost : Lost (lostPool policy n k : PoolState σ τ ι) :=
      ⟨fun pc hpc => List.eq_of_mem_replicate hpc, fun _ => ⟨rfl, rfl⟩⟩
    exact (starts_eq_nil hlost hasks hrun' fun s a s' h ha hstep => h.step ha hstep).2

/-- A pool of two workers that is resized to one. -/
theorem shrunk_pool_loses_all_two :
    Reachable (step fifoScheduler) (PoolState.init fifoScheduler)
        (asleepPool fifoScheduler 2 : PoolState (List Nat) Nat Unit) ∧
      (∃ as, (∀ a ∈ as, a.goesOn) ∧
        run (step fifoScheduler) (asleepPool fifoScheduler 2) (.call () (.resize 1) :: as)
          = some (lostPool fifoScheduler 2 1 : PoolState (List Nat) Nat Unit)) ∧
      ∀ (bs : List (Act Nat Unit)) (s' : PoolState (List Nat) Nat Unit), (∀ a ∈ bs, a.asks = []) →
        run (step fifoScheduler) (lostPool fifoScheduler 2 1) bs = some s' →
        starts (history (step fifoScheduler) (events fifoScheduler) (lostPool fifoScheduler 2 1) bs)
          = [] :=
  shrunk_pool_loses_all fifoScheduler () (by decide : 1 < 2)

end Satf.ThreadPool
