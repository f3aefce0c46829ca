import Satf.Measure.Task

/-!
# The driver loop of `main`

`main` takes its bounds as 32-bit unsigned values, rejects `min_size >
max_size`, and runs

    for (unsigned int i = 1; i <= max_size; i++)

over data sizes: every iteration pushes one element to each of the four
vectors, the one at the midpoint also sorts the partially sorted vector, and
from `min_size` on every data set is scheduled with every algorithm. The loop
counter is a `UInt32`, so `i++` wraps; `fuel` bounds the iterations, and a
loop that has not ended within it yields `none`.

Two things are parameters. `uniformInt` is Boost's distribution behind
`dice`: built from the two bounds converted to `int`, it yields the values
`dice()` returns one after the other, or `none` where it refuses its bounds
(its documented precondition is an assertion in the library). `isMidpoint`
is the floating-point test `i / (float)max_size == 0.5`.

> `driver_schedules_iff`: the loop ends with exactly one task for each size,
> data set and algorithm precisely when the distribution accepts its bounds
> and `max_size` is not the largest unsigned value.
-/

namespace Satf.Driver

open Satf.Lib Satf.Measure

/-! ## Options -/

/-- Command line values that pass `main`'s check. -/
structure Options where
  minSize : UInt32
  maxSize : UInt32
  threadCount : UInt32
  accepted : minSize ≤ maxSize

/-- `if (min_size > max_size) { cerr << ...; return 1; }` -/
def Options.check (minSize maxSize threadCount : UInt32) : Option Options :=
  if h : minSize > maxSize then none
  else some ⟨minSize, maxSize, threadCount, UInt32.not_lt.mp h⟩

/-- `unsigned int` to `int`. -/
def intOfUnsigned (u : UInt32) : Int := u.toBitVec.toInt

/-- Below the largest unsigned value, the counter can pass `max_size`. -/
theorem Options.maxSize_succ_lt {o : Options} (hmax : o.maxSize ≠ 4294967295) :
    o.maxSize.toNat + 1 < 2 ^ 32 := by
  have hle := o.maxSize.toNat_lt
  have hne : o.maxSize.toNat ≠ 4294967295 := fun h => hmax (UInt32.toNat_inj.mp h)
  omega

/-! ## The loop -/

variable (isMidpoint : UInt32 → UInt32 → Bool) (o : Options)

/-- The pushes of iteration `i`, where `dice()` returned `x`, and the sort at
the midpoint. -/
def pushes (i : UInt32) (x : Int) : List MainAct :=
  [.pushBack .random x,
   .pushBack .sorted (intOfUnsigned i),
   .pushBack .reverseSorted (intOfUnsigned (o.maxSize - i)),
   .pushBack .partiallySorted (intOfUnsigned i)]
    ++ if isMidpoint i o.maxSize then [.sort .partiallySorted] else []

/-- The algorithms `main` schedules; `measure_quick_sort` is commented out. -/
def scheduledAlgorithms : List Algorithm := [.heapSort, .stdSort, .stdStableSort]

/-- Every algorithm on every data set. -/
def schedules : List MainAct :=
  DataSet.all.flatMap fun j => scheduledAlgorithms.map fun a => .schedule a j

/-- The body of the loop. -/
def iteration (i : UInt32) (x : Int) : List MainAct :=
  pushes isMidpoint o i x ++ if i < o.minSize then [] else schedules

/-- The loop from counter `i` on, with `drawn` values taken from the dice so
far: what it does, or `none` if it has not ended after `fuel` tests of its
condition. -/
def forLoop (dice : Nat → Int) : Nat → UInt32 → Nat → Option (List MainAct)
  | 0, _, _ => none
  | fuel + 1, i, drawn =>
    if i ≤ o.maxSize then
      (forLoop dice fuel (i + 1) (drawn + 1)).map (iteration isMidpoint o i (dice drawn) ++ ·)
    else some []

/-- `main` from the random number generator to the end of the loop. -/
def driver (uniformInt : Int → Int → Option (Nat → Int)) (fuel : Nat) : Option (List MainAct) :=
  (uniformInt (intOfUnsigned o.minSize) (intOfUnsigned o.maxSize)).bind fun dice =>
    forLoop isMidpoint o dice fuel 1 0

/-! ## The purpose of the loop -/

/-- The task runs `a` on a vector of data set `d` and size `s`. -/
def isFor (a : Algorithm) (d : DataSet) (s : Nat) (t : Task) : Bool :=
  t.algorithm = a ∧ t.dataTraits = d ∧ t.data.length = s

/-- The tasks are one for each size from `lo` to `hi`, each data set and each
of the three algorithms, and no other; tasks of one size and data set are
bound to equal vectors. -/
structure Covers (lo hi : Nat) (ts : List Task) : Prop where
  once : ∀ a d s, ts.countP (isFor a d s)
    = if a ∈ [.heapSort, .stdSort, .stdStableSort] ∧ lo ≤ s ∧ s ≤ hi then 1 else 0
  equal : ∀ t ∈ ts, ∀ t' ∈ ts, t.dataTraits = t'.dataTraits →
    t.data.length = t'.data.length → t.data = t'.data

/-- A covered task has one of the sizes. -/
theorem Covers.length_mem {lo hi : Nat} {ts : List Task} (h : Covers lo hi ts) {t : Task}
    (ht : t ∈ ts) : lo ≤ t.data.length ∧ t.data.length ≤ hi := by
  have hpos : 0 < ts.countP (isFor t.algorithm t.dataTraits t.data.length) :=
    List.countP_pos_iff.mpr ⟨t, ht, by simp [isFor]⟩
  rw [h.once] at hpos
  by_cases hin : t.algorithm ∈ [Algorithm.heapSort, .stdSort, .stdStableSort] ∧
      lo ≤ t.data.length ∧ t.data.length ≤ hi
  · exact hin.2
  · rw [if_neg hin] at hpos
    exact absurd hpos (Nat.lt_irrefl 0)

/-- No task covers no size. -/
theorem Covers.nil {lo hi : Nat} (h : hi < lo) : Covers lo hi [] where
  once a d s := by
    rw [if_neg (by omega)]
    rfl
  equal t ht := absurd ht List.not_mem_nil

/-! ## One iteration -/

/-- All four vectors have length `m`. -/
def AllLength (data : Vectors) (m : Nat) : Prop := ∀ j, (data j).length = m

/-- The tasks of one iteration that schedules, on the vectors as they are. -/
def tasksAt (data : Vectors) : List Task :=
  DataSet.all.flatMap fun j => scheduledAlgorithms.map fun a => ⟨a, data j, j⟩

theorem scheduledTasks_schedules (data : Vectors) :
    scheduledTasks data schedules = tasksAt data := rfl

theorem vectorsAfter_schedules (data : Vectors) : vectorsAfter data schedules = data := rfl

/-- One iteration makes every vector longer by one. -/
theorem pushes_allLength {data : Vectors} {m : Nat} (h : AllLength data m) (i : UInt32) (x : Int) :
    AllLength (vectorsAfter data (pushes isMidpoint o i x)) (m + 1) := by
  intro j
  have hj := h j
  unfold pushes
  rw [vectorsAfter_append]
  by_cases hmid : isMidpoint i o.maxSize = true
  · rw [if_pos hmid]
    cases j <;> simp [vectorsAfter, MainAct.vectors, Function.update, ascending, hj]
  · rw [if_neg hmid]
    cases j <;> simp [vectorsAfter, MainAct.vectors, Function.update, hj]

theorem scheduledTasks_pushes (data : Vectors) (i : UInt32) (x : Int) :
    scheduledTasks data (pushes isMidpoint o i x) = [] := by
  unfold pushes
  rw [scheduledTasks_append]
  split
  · rfl
  · rfl

/-- What an iteration schedules. -/
theorem scheduledTasks_iteration (data : Vectors) (i : UInt32) (x : Int) :
    scheduledTasks data (iteration isMidpoint o i x)
      = if i < o.minSize then [] else tasksAt (vectorsAfter data (pushes isMidpoint o i x)) := by
  unfold iteration
  rw [scheduledTasks_append, scheduledTasks_pushes, List.nil_append]
  by_cases hmin : i < o.minSize
  · rw [if_pos hmin, if_pos hmin]
    rfl
  · rw [if_neg hmin, if_neg hmin, scheduledTasks_schedules]

theorem vectorsAfter_iteration (data : Vectors) (i : UInt32) (x : Int) :
    vectorsAfter data (iteration isMidpoint o i x)
      = vectorsAfter data (pushes isMidpoint o i x) := by
  unfold iteration
  rw [vectorsAfter_append]
  split
  · rfl
  · rw [vectorsAfter_schedules]

/-- The tasks of an iteration cover its size. -/
theorem tasksAt_covers {data : Vectors} {m : Nat} (h : AllLength data m) :
    Covers m m (tasksAt data) where
  once a d s := by
    by_cases hs : m = s
    · subst hs
      cases a <;> cases d <;>
        simp [tasksAt, DataSet.all, scheduledAlgorithms, isFor, h _]
    · rw [if_neg (by omega), List.countP_eq_zero]
      intro t ht
      simp only [tasksAt, List.mem_flatMap, List.mem_map] at ht
      obtain ⟨j, -, a', -, rfl⟩ := ht
      simp [isFor, h j, hs]
  equal := by
    intro t ht t' ht' hd _
    simp only [tasksAt, List.mem_flatMap, List.mem_map] at ht ht'
    obtain ⟨j, -, a, -, rfl⟩ := ht
    obtain ⟨j', -, a', -, rfl⟩ := ht'
    cases hd
    rfl

/-- Two ranges of sizes, one after the other. -/
theorem Covers.append {lo mid hi : Nat} {ts us : List Task} (hlo : lo ≤ mid) (hhi : mid ≤ hi)
    (ht : Covers lo mid ts) (hu : Covers (mid + 1) hi us) : Covers lo hi (ts ++ us) where
  once a d s := by
    rw [List.countP_append, ht.once, hu.once]
    by_cases ha : a ∈ [Algorithm.heapSort, .stdSort, .stdStableSort]
    · simp only [ha, true_and]
      split <;> split <;> split <;> omega
    · simp only [ha, false_and, if_false]
  equal := by
    intro t h t' h' hd hlen
    rcases List.mem_append.mp h with h | h
    · rcases List.mem_append.mp h' with h' | h'
      · exact ht.equal t h t' h' hd hlen
      · have := ht.length_mem h
        have := hu.length_mem h'
        omega
    · rcases List.mem_append.mp h' with h' | h'
      · have := hu.length_mem h
        have := ht.length_mem h'
        omega
      · exact hu.equal t h t' h' hd hlen

/-! ## The whole loop -/

/-- Below the largest unsigned value the loop ends, and the tasks it schedules
from counter `i` on cover the sizes from `i` or `min_size` to `max_size`. -/
theorem forLoop_covers (dice : Nat → Int) (hmax : o.maxSize.toNat + 1 < 2 ^ 32) :
    ∀ (m : Nat) (i : UInt32) (drawn : Nat) (data : Vectors),
      1 ≤ i.toNat → i.toNat + m = o.maxSize.toNat + 1 → AllLength data (i.toNat - 1) →
      ∃ script, (∀ fuel, m < fuel → forLoop isMidpoint o dice fuel i drawn = some script) ∧
        Covers (max o.minSize.toNat i.toNat) o.maxSize.toNat (scheduledTasks data script) := by
  intro m
  induction m with
  | zero =>
    intro i drawn data _ hi _
    refine ⟨[], ?_, Covers.nil (by omega)⟩
    intro fuel hfuel
    obtain ⟨fuel, rfl⟩ : ∃ f, fuel = f + 1 := ⟨fuel - 1, by omega⟩
    -- the counter has passed `max_size`
    have hend : ¬ i ≤ o.maxSize := by
      rw [UInt32.le_iff_toNat_le]
      omega
    rw [forLoop, if_neg hend]
  | succ m ih =>
    intro i drawn data hpos hi hlen
    -- `i++` does not wrap here
    have hnext : (i + 1).toNat = i.toNat + 1 := by
      rw [UInt32.toNat_add, UInt32.toNat_one, Nat.mod_eq_of_lt (by omega)]
    have hgrown : AllLength (vectorsAfter data (iteration isMidpoint o i (dice drawn))) i.toNat := by
      rw [vectorsAfter_iteration]
      have h := pushes_allLength isMidpoint o hlen i (dice drawn)
      rwa [Nat.sub_add_cancel hpos] at h
    obtain ⟨rest, hrest, hcov⟩ := ih (i + 1) (drawn + 1)
      (vectorsAfter data (iteration isMidpoint o i (dice drawn))) (by omega) (by omega)
      (by rw [hnext]; exact hgrown)
    refine ⟨iteration isMidpoint o i (dice drawn) ++ rest, ?_, ?_⟩
    · intro fuel hfuel
      obtain ⟨fuel, rfl⟩ : ∃ f, fuel = f + 1 := ⟨fuel - 1, by omega⟩
      have hgo : i ≤ o.maxSize := by
        rw [UInt32.le_iff_toNat_le]
        omega
      rw [forLoop, if_pos hgo, hrest fuel (by omega), Option.map_some]
    · rw [scheduledTasks_append, scheduledTasks_iteration]
      rw [hnext] at hcov
      by_cases hmin : i < o.minSize
      · -- skipped by `continue`: the sizes start later
        have := UInt32.lt_iff_toNat_lt.mp hmin
        rw [if_pos hmin, List.nil_append]
        rwa [show max o.minSize.toNat i.toNat = max o.minSize.toNat (i.toNat + 1) by omega]
      · have := mt UInt32.lt_iff_toNat_lt.mpr hmin
        rw [if_neg hmin]
        rw [show max o.minSize.toNat (i.toNat + 1) = i.toNat + 1 by omega] at hcov
        rw [show max o.minSize.toNat i.toNat = i.toNat by omega]
        refine Covers.append (Nat.le_refl _) (by omega) (tasksAt_covers ?_) hcov
        rw [← vectorsAfter_iteration]
        exact hgrown

/-- The loop as `main` starts it. -/
theorem loop_covers (dice : Nat → Int) (hmax : o.maxSize ≠ 4294967295) :
    ∃ script, (∀ fuel, o.maxSize.toNat + 1 ≤ fuel →
        forLoop isMidpoint o dice fuel 1 0 = some script) ∧
      Covers (max o.minSize.toNat 1) o.maxSize.toNat (scheduledTasks emptyVectors script) :=
  forLoop_covers isMidpoint o dice (Options.maxSize_succ_lt hmax) o.maxSize.toNat 1 0 emptyVectors
    (Nat.le_refl 1) (Nat.add_comm _ _) (fun _ => rfl)

/-- Where every unsigned value is at most `max_size`, the loop never ends. -/
theorem forLoop_eq_none (dice : Nat → Int) (hmax : o.maxSize = 4294967295) :
    ∀ (fuel : Nat) (i : UInt32) (drawn : Nat),
      forLoop isMidpoint o dice fuel i drawn = none := by
  intro fuel
  induction fuel with
  | zero => intro i drawn; rfl
  | succ fuel ih =>
    intro i drawn
    have hgo : i ≤ o.maxSize := by
      rw [hmax, UInt32.le_iff_toNat_le]
      exact Nat.le_of_lt_succ i.toNat_lt
    rw [forLoop, if_pos hgo, ih]
    rfl

/-- Where the distribution accepts its bounds, the driver does what the loop
does. -/
theorem driver_covers {uniformInt : Int → Int → Option (Nat → Int)} {dice : Nat → Int}
    (hdice : uniformInt (intOfUnsigned o.minSize) (intOfUnsigned o.maxSize) = some dice)
    (hmax : o.maxSize ≠ 4294967295) :
    ∃ script enough, (∀ fuel, enough ≤ fuel → driver isMidpoint o uniformInt fuel = some script) ∧
      Covers (max o.minSize.toNat 1) o.maxSize.toNat (scheduledTasks emptyVectors script) := by
  obtain ⟨script, hends, hcov⟩ := loop_covers isMidpoint o dice hmax
  refine ⟨script, o.maxSize.toNat + 1, ?_, hcov⟩
  intro fuel hfuel
  rw [driver, hdice]
  exact hends fuel hfuel

/-- A driver that ends had bounds that the distribution accepts, and one that
the counter passes. -/
theorem driver_ends {uniformInt : Int → Int → Option (Nat → Int)} {fuel : Nat}
    {script : List MainAct} (h : driver isMidpoint o uniformInt fuel = some script) :
    (uniformInt (intOfUnsigned o.minSize) (intOfUnsigned o.maxSize)).isSome = true ∧
      o.maxSize ≠ 4294967295 := by
  simp only [driver, Option.bind_eq_some_iff] at h
  obtain ⟨dice, hdice, hloop⟩ := h
  refine ⟨by rw [hdice]; rfl, ?_⟩
  intro hmax
  rw [forLoop_eq_none isMidpoint o dice hmax] at hloop
  exact absurd hloop (by simp)

/-- **The loop does its work, except at the largest bound.** The driver ends,
with one task for each size from `max(min_size, 1)` to `max_size`, each data
set and each of the three algorithms, no other task, and equal vectors for the
three tasks of one size and data set, if and only if the distribution accepts
its bounds and `max_size` is not `2^32 - 1`: there `i <= max_size` holds of
every `i`. -/
theorem driver_schedules_iff (uniformInt : Int → Int → Option (Nat → Int)) :
    (∃ script enough, (∀ fuel, enough ≤ fuel → driver isMidpoint o uniformInt fuel = some script) ∧
      Covers (max o.minSize.toNat 1) o.maxSize.toNat (scheduledTasks emptyVectors script)) ↔
    (uniformInt (intOfUnsigned o.minSize) (intOfUnsigned o.maxSize)).isSome = true ∧
      o.maxSize ≠ 4294967295 := by
  constructor
  · intro hdone
    obtain ⟨script, enough, hends, -⟩ := hdone
    exact driver_ends isMidpoint o (hends enough (Nat.le_refl _))
  · intro hcond
    obtain ⟨hsome, hmax⟩ := hcond
    obtain ⟨dice, hdice⟩ := Option.isSome_iff_exists.mp hsome
    exact driver_covers isMidpoint o hdice hmax

/-- With both bounds at the largest value, and a distribution that returns the
only value between `-1` and `-1`, no number of iterations is enough. -/
theorem driver_never_ends :
    ¬ ∃ fuel script, driver (fun _ _ => false) ⟨4294967295, 4294967295, 2, UInt32.le_refl _⟩
      (fun lo hi => if lo ≤ hi then some fun _ => lo else none) fuel = some script := by
  intro hdone
  obtain ⟨fuel, script, hends⟩ := hdone
  rw [driver, if_pos (Int.le_refl _), Option.bind_some, forLoop_eq_none _ _ _ rfl] at hends
  cases hends

/-- Sizes one and two, on a dice that always shows one. -/
example : (driver (fun _ _ => false) ⟨2, 2, 2, UInt32.le_refl _⟩ (fun _ _ => some fun _ => 1) 3).map
    (fun script => (scheduledTasks emptyVectors script).map fun t => t.data)
      = some [[1, 1], [1, 1], [1, 1], [1, 2], [1, 2], [1, 2], [1, 0], [1, 0], [1, 0],
        [1, 2], [1, 2], [1, 2]] := rfl

end Satf.Driver
