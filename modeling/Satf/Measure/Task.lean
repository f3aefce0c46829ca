import Satf.Lib.Decimal
import Satf.Lib.FileSystem
import Satf.Lib.Ordered
import Mathlib.Data.UInt

/-!
# Measurement tasks

What `main` schedules and what a task logs. `main` keeps four vectors and
their printable names side by side (`data[4]` and `data_names[4]`); here a
`DataSet` indexes both. A task is a measuring function bound, by value, to one
of the vectors and its name.

The scheduling part of `main` is a sequence of `MainAct`s on the four vectors.
What it schedules is a function of that sequence alone (`scheduledTasks`), so
it can be compared with what the workers later do, in whatever order they do
it.
-/

namespace Satf.Measure

open Satf.Lib

/-! ## Data sets, algorithms, tasks -/

/-- An index into `data[4]` and `data_names[4]`. -/
inductive DataSet where
  | random
  | sorted
  | reverseSorted
  | partiallySorted
  deriving DecidableEq, Repr

/-- `data_names[j]`. -/
def DataSet.name : DataSet → String
  | .random => "random_data"
  | .sorted => "sorted_data"
  | .reverseSorted => "reverse_sorted_data"
  | .partiallySorted => "partially_sorted_data"

/-- The order of the loop over `j`. -/
def DataSet.all : List DataSet := [.random, .sorted, .reverseSorted, .partiallySorted]

/-- The measuring functions of `main.cpp`, by the algorithm they time. `main`
does not schedule `measure_quick_sort`, and could not: `bind2nd` in `quick_sort`
needs argument typedefs that `CountLess` lacks. -/
inductive Algorithm where
  | heapSort
  | recursiveQuickSort
  | stdSort
  | stdStableSort
  deriving DecidableEq, Repr

/-- The name each measuring function passes to `log()`. -/
def Algorithm.logName : Algorithm → String
  | .heapSort => "heap_sort"
  | .recursiveQuickSort => "recursive_quick_sort"
  | .stdSort => "std_sort"
  | .stdStableSort => "std_stable_sort"

theorem DataSet.name_inj {d e : DataSet} : d.name = e.name ↔ d = e := by
  cases d <;> cases e <;> decide

theorem Algorithm.logName_inj {a b : Algorithm} : a.logName = b.logName ↔ a = b := by
  cases a <;> cases b <;> decide

/-- `bind(measure_*<int>, data[j], data_names[j])`. -/
structure Task where
  algorithm : Algorithm
  data : List Int
  dataTraits : DataSet
  deriving DecidableEq, Repr

/-! ## Scheduling -/

/-- The vectors of `main`. -/
abbrev Vectors := DataSet → List Int

/-- The vectors `main` starts with. -/
def emptyVectors : Vectors := fun _ => []

/-- What `main` does with its vectors and the pool. -/
inductive MainAct where
  | pushBack (j : DataSet) (x : Int)
  | sort (j : DataSet)
  | schedule (a : Algorithm) (j : DataSet)
  deriving DecidableEq, Repr

/-- The vectors after one act. -/
def MainAct.vectors (data : Vectors) : MainAct → Vectors
  | .pushBack j x => Function.update data j (data j ++ [x])
  | .sort j => Function.update data j (ascending (data j))
  | .schedule _ _ => data

/-- The task an act hands to the pool, bound to a copy of the vector as it is
at that moment. -/
def MainAct.task (data : Vectors) : MainAct → List Task
  | .schedule a j => [⟨a, data j, j⟩]
  | _ => []

/-- The vectors after a sequence of acts. -/
def vectorsAfter (data : Vectors) (script : List MainAct) : Vectors :=
  script.foldl MainAct.vectors data

/-- The tasks a sequence of acts schedules, in order. -/
def scheduledTasks : Vectors → List MainAct → List Task
  | _, [] => []
  | data, act :: rest => act.task data ++ scheduledTasks (act.vectors data) rest

theorem vectorsAfter_append (data : Vectors) (s t : List MainAct) :
    vectorsAfter data (s ++ t) = vectorsAfter (vectorsAfter data s) t :=
  List.foldl_append

theorem scheduledTasks_append (data : Vectors) (s t : List MainAct) :
    scheduledTasks data (s ++ t)
      = scheduledTasks data s ++ scheduledTasks (vectorsAfter data s) t := by
  induction s generalizing data with
  | nil => rfl
  | cons act s ih =>
    rw [List.cons_append, scheduledTasks, ih, scheduledTasks, List.append_assoc]
    rfl

/-- A scheduled task is bound to the vector as it was when it was scheduled. -/
theorem mem_scheduledTasks {data : Vectors} {script : List MainAct} {t : Task} :
    t ∈ scheduledTasks data script ↔
      ∃ before after, script = before ++ .schedule t.algorithm t.dataTraits :: after ∧
        t.data = vectorsAfter data before t.dataTraits := by
  induction script generalizing data with
  | nil => simp [scheduledTasks]
  | cons act script ih =>
    rw [scheduledTasks, List.mem_append, ih]
    constructor
    · intro hmem
      rcases hmem with h | ⟨before, after, hs, hd⟩
      · cases act with
        | schedule a j =>
          rw [MainAct.task, List.mem_singleton] at h
          subst h
          exact ⟨[], script, rfl, rfl⟩
        | pushBack j x => exact absurd h List.not_mem_nil
        | sort j => exact absurd h List.not_mem_nil
      · exact ⟨act :: before, after, by rw [hs]; rfl, hd⟩
    · intro hsplit
      obtain ⟨before, after, hs, hd⟩ := hsplit
      cases before with
      | nil =>
        simp only [List.nil_append, List.cons.injEq] at hs
        left
        rw [hs.1, MainAct.task, List.mem_singleton]
        cases t
        simp only [Task.mk.injEq, true_and, and_true]
        exact hd
      | cons b before =>
        simp only [List.cons_append, List.cons.injEq] at hs
        right
        refine ⟨before, after, hs.2, ?_⟩
        rw [hs.1]
        exact hd

/-! ## The logged line -/

/-- `size_t` to `int`, as `tmp.size()` is passed to `log()`. -/
def intOfSize (n : Nat) : Int := (BitVec.ofNat 32 n).toInt

/-- 64-bit signed microseconds to `unsigned int`. -/
def unsignedOfMicros (us : Int) : UInt32 := UInt32.ofBitVec (BitVec.ofInt 32 us)

/-- `ofs << size << ' ' << time_msecs << ' ' << comparison_count << std::endl`. -/
def logLine (size : Int) (timeMsecs comparisonCount : UInt32) : List Char :=
  decimalInt size ++ ' ' :: decimal timeMsecs.toNat ++ ' ' :: decimal comparisonCount.toNat
    ++ ['\n']

/-- The text before the first blank of a line. -/
def firstField (line : List Char) : List Char := line.takeWhile (fun c => c ≠ ' ')

/-- A length below `2^31` survives the conversion to `int`. -/
theorem intOfSize_of_lt {n : Nat} (h : n < 2 ^ 31) : intOfSize n = n := by
  unfold intOfSize
  rw [BitVec.toInt_eq_toNat_of_lt (by rw [BitVec.toNat_ofNat]; omega), BitVec.toNat_ofNat,
    Nat.mod_eq_of_lt (by omega)]

private theorem not_blank_of_digit {c : Char} (h : c.isDigit = true ∨ c = '-') :
    c ≠ ' ' ∧ c ≠ '\n' := by
  constructor
  · intro hc
    rw [hc] at h
    exact absurd h (by simp)
  · intro hc
    rw [hc] at h
    exact absurd h (by simp)

/-- The first field of a logged line is its size argument. -/
theorem firstField_logLine (size : Int) (timeMsecs comparisonCount : UInt32) :
    firstField (logLine size timeMsecs comparisonCount) = decimalInt size := by
  have hall : ∀ c ∈ decimalInt size, decide (c ≠ ' ') = true := by
    intro c hc
    rw [decide_eq_true_eq]
    exact (not_blank_of_digit (mem_decimalInt hc)).1
  unfold firstField logLine
  rw [List.append_assoc, List.append_assoc, List.takeWhile_append_of_pos hall]
  simp

/-- A logged line is complete: it ends with its only line break. -/
theorem logLine_one_break (size : Int) (timeMsecs comparisonCount : UInt32) :
    ∃ body, logLine size timeMsecs comparisonCount = body ++ ['\n'] ∧ '\n' ∉ body := by
  refine ⟨decimalInt size ++ ' ' :: decimal timeMsecs.toNat
    ++ ' ' :: decimal comparisonCount.toNat, rfl, ?_⟩
  intro h
  simp only [List.mem_append, List.mem_cons] at h
  rcases h with (h | h | h) | h | h
  · exact (not_blank_of_digit (mem_decimalInt h)).2 rfl
  · exact absurd h (by simp)
  · exact (not_blank_of_digit (.inl (isDigit_of_mem_decimal h))).2 rfl
  · exact absurd h (by simp)
  · exact (not_blank_of_digit (.inl (isDigit_of_mem_decimal h))).2 rfl

/-- Where `log()` writes: `<dir>/<data set>/<algorithm>`. -/
def logFile (dir : Path) (a : Algorithm) (d : DataSet) : Path := a.logName :: d.name :: dir

theorem logFile_inj {dir : Path} {a b : Algorithm} {d e : DataSet} :
    logFile dir a d = logFile dir b e ↔ a = b ∧ d = e := by
  simp [logFile, Algorithm.logName_inj, DataSet.name_inj]

end Satf.Measure
