import Mathlib.Data.List.Basic
import Mathlib.Data.UInt
import Mathlib.Logic.Function.Basic

/-!
# `CountLess`: a comparator that counts through a thread-local

The algorithms take their comparator by value, so a count kept inside it would
be lost with the copies. `countless.h` keeps it in a
`boost::thread_specific_ptr<unsigned int>` instead: one counter per thread,
shared by all comparators on that thread, allocated by the default constructor
if it is null, incremented by `operator()`, read and reset by `count()`. A copy
is made by the implicit copy constructor, which allocates nothing; a comparator
has no members of its own, so which copy is called cannot matter.

> `results_exact`: on every interleaving of such operations in which a thread
> constructs a comparator before it compares or counts, no operation reads a
> null counter, and `count()` returns the number of calls on its thread since
> that thread's previous `count()`, modulo `2^32`.
-/

namespace Satf.Measure

variable {θ T : Type}

/-- A thread's `s_count`: null, or an allocated counter. -/
abbrev Slot := Option UInt32

namespace CountLess

/-- `CountLess()`: allocates the counter if the thread has none. -/
def construct : Slot → Slot
  | none => some 0
  | some c => some c

/-- `operator()(a, b)`: `none` where it would read a null counter. -/
def call (lt : T → T → Bool) (slot : Slot) (a b : T) : Option (Bool × Slot) :=
  match slot with
  | none => none
  | some c => some (lt a b, some (c + 1))

/-- `count()`: the counter, which is 0 afterwards; `none` where it would read
a null counter. -/
def count : Slot → Option (UInt32 × Slot)
  | none => none
  | some c => some (c, some 0)

/-- What a thread does with comparators. -/
inductive Op (T : Type) where
  | construct
  | copy
  | call (a b : T)
  | count
  deriving DecidableEq

/-- What an operation returns. -/
inductive Result where
  | nothing
  | less (b : Bool)
  | counted (c : UInt32)
  deriving DecidableEq

/-- Comparing and counting dereference the counter. -/
def Op.readsCounter : Op T → Bool
  | .call _ _ => true
  | .count => true
  | _ => false

variable [DecidableEq θ]

/-- One operation of one thread, on that thread's counter. -/
def step (lt : T → T → Bool) (slots : θ → Slot) (e : θ × Op T) : Option ((θ → Slot) × Result) :=
  match e.2 with
  | .construct => some (Function.update slots e.1 (construct (slots e.1)), .nothing)
  | .copy => some (slots, .nothing)
  | .call a b =>
    (call lt (slots e.1) a b).map fun r => (Function.update slots e.1 r.2, .less r.1)
  | .count =>
    (count (slots e.1)).map fun r => (Function.update slots e.1 r.2, .counted r.1)

/-- The results of an interleaving of operations, in order. -/
def results (lt : T → T → Bool) : (θ → Slot) → List (θ × Op T) → Option (List Result)
  | _, [] => some []
  | slots, e :: es =>
    (step lt slots e).bind fun r => (results lt r.1 es).map fun rs => r.2 :: rs

/-! ## What `count()` ought to return -/

/-- The event is a `count()` on thread `t`. -/
def isCount (t : θ) (e : θ × Op T) : Bool :=
  match e.2 with
  | .count => decide (e.1 = t)
  | _ => false

/-- The event is a call of `operator()` on thread `t`. -/
def isCall (t : θ) (e : θ × Op T) : Bool :=
  match e.2 with
  | .call _ _ => decide (e.1 = t)
  | _ => false

/-- The number of calls on thread `t` since its previous `count()`, or since
it started. -/
def callsSinceCount (t : θ) (past : List (θ × Op T)) : Nat :=
  (past.reverse.takeWhile (fun e => !isCount t e)).countP (isCall t)

/-- Every thread constructs a comparator before it compares or counts. -/
def Disciplined (es : List (θ × Op T)) : Prop :=
  ∀ past e rest, es = past ++ e :: rest → e.2.readsCounter = true → (e.1, .construct) ∈ past

theorem callsSinceCount_snoc (t : θ) (past : List (θ × Op T)) (e : θ × Op T) :
    callsSinceCount t (past ++ [e])
      = if isCount t e then 0 else callsSinceCount t past + if isCall t e then 1 else 0 := by
  unfold callsSinceCount
  rw [List.reverse_append, List.reverse_singleton, List.singleton_append, List.takeWhile_cons]
  cases hc : isCount t e with
  | true => rfl
  | false =>
    rw [Bool.not_false, if_pos rfl, List.countP_cons]
    rfl

/-! ## The invariant -/

/-- The counters after `past`: allocated once the thread has constructed a
comparator, and then equal to its calls since its previous `count()`. -/
structure Counts (past : List (θ × Op T)) (slots : θ → Slot) : Prop where
  allocated : ∀ t, (t, Op.construct) ∈ past → ∃ c, slots t = some c
  exact : ∀ t c, slots t = some c → c = UInt32.ofNat (callsSinceCount t past)
  unused : ∀ t, slots t = none → callsSinceCount t past = 0

theorem counts_init : Counts ([] : List (θ × Op T)) (fun _ => none) where
  allocated t h := absurd h List.not_mem_nil
  exact t c h := absurd h (by simp)
  unused t _ := rfl

/-- A step on thread `u` that neither calls nor counts there leaves every count
as it is. -/
theorem callsSinceCount_other {t : θ} {past : List (θ × Op T)} {e : θ × Op T}
    (h : e.1 ≠ t ∨ e.2.readsCounter = false) :
    callsSinceCount t (past ++ [e]) = callsSinceCount t past := by
  have hcount : isCount t e = false := by
    obtain ⟨u, op⟩ := e
    cases op <;> simp_all [isCount, Op.readsCounter]
  have hcall : isCall t e = false := by
    obtain ⟨u, op⟩ := e
    cases op <;> simp_all [isCall, Op.readsCounter]
  rw [callsSinceCount_snoc, hcount, hcall]
  rfl

/-- The invariant after an operation of thread `u` that leaves `c` in its own
counter: every other thread's counter and count are as before. -/
theorem Counts.update {past : List (θ × Op T)} {slots : θ → Slot} {u : θ} {op : Op T}
    {c : UInt32} (hinv : Counts past slots)
    (hc : c = UInt32.ofNat (callsSinceCount u (past ++ [(u, op)]))) :
    Counts (past ++ [(u, op)]) (Function.update slots u (some c)) := by
  constructor
  · intro t ht
    by_cases htu : t = u
    · exact ⟨c, by rw [htu, Function.update_self]⟩
    · rw [Function.update_of_ne htu]
      rcases List.mem_append.mp ht with hp | hn
      · exact hinv.allocated t hp
      · exact absurd (congrArg Prod.fst (List.mem_singleton.mp hn)) htu
  · intro t c' hc'
    by_cases htu : t = u
    · rw [htu, Function.update_self] at hc'
      rw [htu, ← Option.some.inj hc', hc]
    · rw [Function.update_of_ne htu] at hc'
      rw [callsSinceCount_other (.inl (Ne.symm htu))]
      exact hinv.exact t c' hc'
  · intro t hn
    by_cases htu : t = u
    · rw [htu, Function.update_self] at hn
      exact absurd hn (by simp)
    · rw [Function.update_of_ne htu] at hn
      rw [callsSinceCount_other (.inl (Ne.symm htu))]
      exact hinv.unused t hn

/-- Whatever the counter was, construction leaves one that is allocated and
still right. -/
theorem Counts.construct {past : List (θ × Op T)} {slots : θ → Slot} (hinv : Counts past slots)
    (u : θ) : ∃ c, CountLess.construct (slots u) = some c ∧
      c = UInt32.ofNat (callsSinceCount u past) := by
  cases hs : slots u with
  | none => exact ⟨0, rfl, by rw [hinv.unused u hs]; rfl⟩
  | some c => exact ⟨c, rfl, hinv.exact u c hs⟩

/-- One operation keeps the invariant, when a counter it reads is allocated,
and a `count()` returns the calls since the previous one. -/
theorem counts_step (lt : T → T → Bool) {past : List (θ × Op T)} {slots : θ → Slot}
    {e : θ × Op T} (hinv : Counts past slots)
    (hread : e.2.readsCounter = true → (e.1, Op.construct) ∈ past) :
    ∃ slots' r, step lt slots e = some (slots', r) ∧ Counts (past ++ [e]) slots' ∧
      (e.2 = .count → r = .counted (UInt32.ofNat (callsSinceCount e.1 past))) := by
  obtain ⟨u, op⟩ := e
  cases op with
  | construct =>
    obtain ⟨c, hc, hcount⟩ := hinv.construct u
    refine ⟨Function.update slots u (some c), .nothing, by simp only [step, hc], hinv.update ?_,
      fun h => nomatch h⟩
    rw [callsSinceCount_other (.inr rfl)]
    exact hcount
  | copy =>
    -- the implicit copy constructor touches no counter
    refine ⟨slots, _, rfl, ?_, fun h => nomatch h⟩
    have hsame : ∀ t, callsSinceCount t (past ++ [(u, Op.copy)])
        = callsSinceCount t past := fun t => callsSinceCount_other (.inr rfl)
    refine ⟨fun t ht => hinv.allocated t ?_, fun t c hc => ?_, fun t hn => ?_⟩
    · rcases List.mem_append.mp ht with hp | hn
      · exact hp
      · exact absurd (congrArg Prod.snd (List.mem_singleton.mp hn)) (by simp)
    · rw [hsame]
      exact hinv.exact t c hc
    · rw [hsame]
      exact hinv.unused t hn
  | call a b =>
    -- the thread has constructed a comparator, so there is a counter
    obtain ⟨c, hc⟩ := hinv.allocated u (hread rfl)
    have hone : callsSinceCount u (past ++ [(u, Op.call a b)]) = callsSinceCount u past + 1 := by
      rw [callsSinceCount_snoc]
      simp [isCount, isCall]
    refine ⟨Function.update slots u (some (c + 1)), .less (lt a b), by simp [step, call, hc],
      hinv.update ?_, fun h => nomatch h⟩
    rw [hone, hinv.exact u c hc, UInt32.ofNat_add]
    rfl
  | count =>
    obtain ⟨c, hc⟩ := hinv.allocated u (hread rfl)
    have hzero : callsSinceCount u (past ++ [(u, Op.count)]) = 0 := by
      rw [callsSinceCount_snoc]
      simp [isCount]
    refine ⟨Function.update slots u (some 0), .counted c, by simp [step, count, hc],
      hinv.update (by rw [hzero]; rfl), ?_⟩
    intro _
    rw [hinv.exact u c hc]

/-- The invariant carried along the rest of an interleaving. -/
theorem results_of_counts (lt : T → T → Bool) :
    ∀ (es past : List (θ × Op T)) (slots : θ → Slot), Counts past slots →
      Disciplined (past ++ es) →
      ∃ rs, results lt slots es = some rs ∧ rs.length = es.length ∧
        ∀ mid t rest, es = mid ++ (t, .count) :: rest →
          rs[mid.length]? = some (.counted (UInt32.ofNat (callsSinceCount t (past ++ mid)))) := by
  intro es
  induction es with
  | nil =>
    intro past slots _ _
    refine ⟨[], rfl, rfl, ?_⟩
    intro mid t rest h
    exact absurd h (by simp)
  | cons e es ih =>
    intro past slots hinv hdisc
    obtain ⟨slots', r, hstep, hinv', hret⟩ := counts_step lt hinv (hdisc past e es rfl)
    have hsplit : past ++ e :: es = past ++ [e] ++ es := by simp
    obtain ⟨rs, hrs, hlen, hcount⟩ := ih (past ++ [e]) slots' hinv' (hsplit ▸ hdisc)
    refine ⟨r :: rs, by simp [results, hstep, hrs], by simp [hlen], ?_⟩
    intro mid t rest h
    cases mid with
    | nil =>
      simp only [List.nil_append, List.cons.injEq] at h
      rw [List.append_nil, List.length_nil, List.getElem?_cons_zero, hret (by rw [h.1]), h.1]
    | cons e' mid =>
      simp only [List.cons_append, List.cons.injEq] at h
      rw [List.length_cons, List.getElem?_cons_succ, hcount mid t rest h.2, ← h.1,
        List.append_assoc, List.singleton_append]

/-- **`count()` is exact.** Whatever the threads do, in whatever order, as long
as each constructs a comparator before it compares or counts: no null counter
is read, and every `count()` returns the number of calls on its own thread
since that thread's previous `count()`, modulo `2^32`. -/
theorem results_exact (lt : T → T → Bool) {es : List (θ × Op T)} (hdisc : Disciplined es) :
    ∃ rs, results lt (fun _ => none) es = some rs ∧ rs.length = es.length ∧
      ∀ past t rest, es = past ++ (t, .count) :: rest →
        rs[past.length]? = some (.counted (UInt32.ofNat (callsSinceCount t past))) :=
  results_of_counts lt es [] (fun _ => none) counts_init hdisc

/-! ## One comparison after the other -/

/-- The counter after the calls `operator()(a, b)` for these pairs, in order. -/
def callAll (lt : T → T → Bool) : Slot → List (T × T) → Option Slot
  | slot, [] => some slot
  | slot, (a, b) :: pairs => (call lt slot a b).bind fun r => callAll lt r.2 pairs

/-- Each call adds one to an allocated counter. -/
theorem callAll_allocated (lt : T → T → Bool) (pairs : List (T × T)) (c : UInt32) :
    callAll lt (some c) pairs = some (some (c + UInt32.ofNat pairs.length)) := by
  induction pairs generalizing c with
  | nil =>
    show some (some c) = some (some (c + 0))
    rw [UInt32.add_zero]
  | cons pair pairs ih =>
    show callAll lt (some (c + 1)) pairs = _
    rw [ih, List.length_cons, UInt32.ofNat_add, UInt32.add_assoc]
    congr 3
    exact UInt32.add_comm _ _

/-- From 0 on, the counter is the number of calls as long as that is below
`2^32`. -/
theorem callAll_exact (lt : T → T → Bool) {pairs : List (T × T)} (h : pairs.length < 2 ^ 32) :
    ∃ c, callAll lt (some 0) pairs = some (some c) ∧ c.toNat = pairs.length := by
  refine ⟨0 + UInt32.ofNat pairs.length, callAll_allocated lt pairs 0, ?_⟩
  rw [UInt32.zero_add, UInt32.toNat_ofNat', Nat.mod_eq_of_lt h]

end CountLess

end Satf.Measure
