import Satf.Lib.TextTools
import Satf.Measure.Exactness

/-!
# The conversions between a measurement and its line

A measuring function passes three values to `log()`: `tmp.size()`, a `size_t`
that becomes an `int`; the microseconds between two readings of the local
clock, a signed 64-bit number that becomes an `unsigned int`; and the count of
`CountLess`, which is an `unsigned int` from the start. The stream writes what
is left of them in decimal.

> `logged_line_exact_iff`: the line holds the three measured values exactly
> when the length is below `2^31`, the clock has not stepped back and less than
> `2^32` microseconds have passed, and there were less than `2^32` comparisons.
-/

namespace Satf.Measure

open Satf.Lib Satf.Lib.Shell

/-- The line with the measured values as they are. -/
def exactLine (length : Nat) (micros : Int) (comparisons : Nat) : List Char :=
  decimal length ++ ' ' :: decimalInt micros ++ ' ' :: decimal comparisons ++ ['\n']

/-- Values that all conversions leave as they are. -/
structure Representable (length : Nat) (micros : Int) (comparisons : Nat) : Prop where
  length_lt : length < 2 ^ 31
  micros_nonneg : 0 ≤ micros
  micros_lt : micros < 2 ^ 32
  comparisons_lt : comparisons < 2 ^ 32

/-- A measuring function on its thread, from the construction of the comparator
to the line that `log()` writes, for clock readings `start` and `stop` around a
sort that makes these comparisons; and the counter afterwards. -/
def measure (slot : Slot) (data : List Int) (start : Int) (compared : List (Int × Int))
    (stop : Int) : Option (List Char × Slot) :=
  (CountLess.callAll lessOf (CountLess.construct slot) compared).bind fun slot =>
    (CountLess.count slot).map fun r =>
      (logLine (intOfSize data.length) (unsignedOfMicros (stop - start)) r.1, r.2)

/-! ## Each conversion -/

theorem intOfSize_eq_iff {n : Nat} : intOfSize n = n ↔ n < 2 ^ 31 := by
  constructor
  · intro h
    have hlt : intOfSize n < 2 ^ 31 := BitVec.toInt_lt
    omega
  · exact intOfSize_of_lt

theorem unsignedOfMicros_eq_iff {us : Int} :
    ((unsignedOfMicros us).toNat : Int) = us ↔ 0 ≤ us ∧ us < 2 ^ 32 := by
  have hvalue : ((unsignedOfMicros us).toNat : Int) = us % 2 ^ 32 := by
    show (((BitVec.ofInt 32 us).toNat : Nat) : Int) = _
    rw [BitVec.toNat_ofInt]
    exact Int.toNat_of_nonneg (Int.emod_nonneg _ (by decide))
  rw [hvalue]
  omega

theorem count_eq_iff {c : Nat} : (UInt32.ofNat c).toNat = c ↔ c < 2 ^ 32 := by
  rw [UInt32.toNat_ofNat']
  omega

/-! ## The line -/

/-- Two lines are equal when their three fields are. -/
theorem fields_inj {a b c a' b' c' : Text} (ha : isWord a = true) (hb : isWord b = true)
    (hc : isWord c = true) (ha' : isWord a' = true) (hb' : isWord b' = true)
    (hc' : isWord c' = true) :
    a ++ ' ' :: b ++ ' ' :: c ++ ['\n'] = a' ++ ' ' :: b' ++ ' ' :: c' ++ ['\n'] ↔
      a = a' ∧ b = b' ∧ c = c' := by
  constructor
  · intro h
    have hwords := congrArg words (List.append_cancel_right h)
    rw [words_three ha hb hc, words_three ha' hb' hc'] at hwords
    simpa using hwords
  · intro h
    obtain ⟨rfl, rfl, rfl⟩ := h
    rfl

/-- What `log()` writes is the exact line when its three arguments are the
measured values. -/
theorem logLine_eq_exactLine_iff {size : Int} {timeMsecs comparisonCount : UInt32} {length : Nat}
    {micros : Int} {comparisons : Nat} :
    logLine size timeMsecs comparisonCount = exactLine length micros comparisons ↔
      size = length ∧ (timeMsecs.toNat : Int) = micros ∧
        comparisonCount.toNat = comparisons := by
  unfold logLine exactLine
  rw [fields_inj (isWord_decimalInt size) (isWord_decimal _) (isWord_decimal _)
    (isWord_decimal length) (isWord_decimalInt micros) (isWord_decimal comparisons), decimal_inj]
  rw [show decimal length = decimalInt length from rfl, decimalInt_inj,
    show decimal timeMsecs.toNat = decimalInt timeMsecs.toNat from rfl, decimalInt_inj]

/-- The line of a measurement. -/
theorem convertedLine_exact_iff {length : Nat} {micros : Int} {comparisons : Nat} :
    logLine (intOfSize length) (unsignedOfMicros micros) (UInt32.ofNat comparisons)
        = exactLine length micros comparisons ↔
      Representable length micros comparisons := by
  rw [logLine_eq_exactLine_iff, intOfSize_eq_iff, unsignedOfMicros_eq_iff, count_eq_iff]
  constructor
  · intro h
    exact ⟨h.1, h.2.1.1, h.2.1.2, h.2.2⟩
  · intro h
    exact ⟨h.length_lt, ⟨h.micros_nonneg, h.micros_lt⟩, h.comparisons_lt⟩

/-- A measurement on a thread whose counter is null, or 0 as an earlier one has
left it. -/
theorem measure_eq {slot : Slot} (hslot : slot = none ∨ slot = some 0) (data : List Int)
    (start : Int) (compared : List (Int × Int)) (stop : Int) :
    measure slot data start compared stop
      = some (logLine (intOfSize data.length) (unsignedOfMicros (stop - start))
          (UInt32.ofNat compared.length), some 0) := by
  have hconstruct : CountLess.construct slot = some 0 := by
    rcases hslot with rfl | rfl <;> rfl
  rw [measure, hconstruct, CountLess.callAll_allocated, UInt32.zero_add]
  rfl

/-! ## Every measurement -/

variable {n : Nat} {dir : Path} {s : World n} {fs : FileSystem Char} {script : List MainAct}

/-- **A line is exact when its values are representable, and only then.** For
every vector, every two clock readings and every sequence of comparisons, a
measuring function on a thread without an earlier count writes the vector's
length, the elapsed microseconds and the number of comparisons if and only if
all three are representable. The same holds of every line that has been written
in a run, whatever the threads did in which order. -/
theorem logged_line_exact_iff (hr : Reachable (step dir) (World.init n script fs) s) :
    (∀ (slot : Slot) (data : List Int) (start stop : Int) (compared : List (Int × Int)),
      slot = none ∨ slot = some 0 →
      ∃ line, measure slot data start compared stop = some (line, some 0) ∧
        (line = exactLine data.length (stop - start) compared.length ↔
          Representable data.length (stop - start) compared.length)) ∧
    ∀ r ∈ s.left,
      (r.line = exactLine r.task.data.length r.micros r.comparisons ↔
        Representable r.task.data.length r.micros r.comparisons) := by
  constructor
  · intro slot data start stop compared hslot
    exact ⟨_, measure_eq hslot data start compared stop, convertedLine_exact_iff⟩
  · intro r hmem
    -- the count was that of the task's own sort
    rw [Record.line, (reachable_slotInv hr).logged r hmem]
    exact convertedLine_exact_iff

/-- One task on worker `w` and an empty vector, whose sort ends at the clock
reading `stop` and whose line has `length` characters. -/
def oneTaskStopping (w : Fin n) (stop : Int) (length : Nat) : List (Act n) :=
  [.main, .fetch w 0, .task w .construct, .task w (.startClock 0), .task w (.stopClock stop),
    .task w .count, .task w .lock, .task w .makeDir, .task w .openFile, .task w (.write length),
    .task w .unlock]

/-- The theorem on two elements compared once, and on a task that takes seven
microseconds. -/
theorem logged_line_exact_seven :
    (∃ line, measure none [2, 1] 0 [(1, 2)] 5 = some (line, some 0) ∧ line = exactLine 2 5 1) ∧
    ∃ s, run (step []) (World.init 1 [.schedule .heapSort .random] FileSystem.empty)
        (oneTaskStopping 0 7 6) = some s ∧
      ∃ r ∈ s.left, r.line = exactLine 0 7 0 := by
  have hrun : (run (step []) (World.init 1 [.schedule .heapSort .random] FileSystem.empty)
      (oneTaskStopping 0 7 6)).map World.left = some [⟨⟨.heapSort, [], .random⟩, 7, 0, 0⟩] := rfl
  obtain ⟨s, hs, hleft⟩ := Option.map_eq_some_iff.mp hrun
  have hmem : (⟨⟨.heapSort, [], .random⟩, 7, 0, 0⟩ : Record) ∈ s.left := by
    rw [hleft]
    exact List.mem_singleton_self _
  obtain ⟨hmeasure, hlogged⟩ := logged_line_exact_iff ⟨_, hs⟩
  obtain ⟨line, hline, hexact⟩ := hmeasure none [2, 1] 0 5 [(1, 2)] (.inl rfl)
  exact ⟨⟨line, hline, hexact.mpr ⟨by decide, by decide, by decide, by decide⟩⟩, s, hs, _, hmem,
    (hlogged _ hmem).mpr ⟨by decide, by decide, by decide, by decide⟩⟩

/-- The local clock steps back by a microsecond during a sort: the line says
that more than an hour has passed. -/
theorem logged_line_clock_back :
    ∃ s, run (step []) (World.init 1 [.schedule .heapSort .random] FileSystem.empty)
        (oneTaskStopping 0 (-1) 15) = some s ∧
      ∃ r ∈ s.left, r.line = "0 4294967295 0\n".toList ∧
        exactLine r.task.data.length r.micros r.comparisons = "0 -1 0\n".toList ∧
        r.line ≠ exactLine r.task.data.length r.micros r.comparisons := by
  have hrun : (run (step []) (World.init 1 [.schedule .heapSort .random] FileSystem.empty)
      (oneTaskStopping 0 (-1) 15)).map World.left
        = some [⟨⟨.heapSort, [], .random⟩, -1, 0, 0⟩] := rfl
  obtain ⟨s, hs, hleft⟩ := Option.map_eq_some_iff.mp hrun
  refine ⟨s, hs, ⟨⟨.heapSort, [], .random⟩, -1, 0, 0⟩, ?_, by decide, by decide, by decide⟩
  rw [hleft]
  exact List.mem_singleton_self _

end Satf.Measure
