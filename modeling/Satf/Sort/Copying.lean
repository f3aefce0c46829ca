import Satf.Lib.StdSort
import Satf.Sort.QuickSort

/-!
# The copying overloads, and `heap_sort`

`quicksort.h` and `heapsort.h` each have a second form that leaves the source
alone: it copies the range into a temporary vector, sorts that, and copies
the vector to an output position, whose advanced value it returns. The
copying `heap_sort` calls the in-place one on the temporary; the copying
`quick_sort` spells out the first level of the recursion again and calls the
in-place one for the two parts.

Source and output are ranges of one sequence of cells here, so an output that
overlaps the source is covered: the temporary is complete before the first
cell is written.
-/

namespace Satf.Sort

open Satf.Lib

variable {α : Type}

/-! ## The functions -/

/-- In-place `heap_sort(first, beyond, less)`. -/
def heapSort (heap : StdHeap α) (less : α → α → Bool) (cells : List α)
    (first beyond : Nat) : List α :=
  let cells := splice cells first (heap.makeHeap less (slice cells first beyond))
  splice cells first (heap.sortHeap less (slice cells first beyond))

/-- `heap_sort(first, beyond, result, less)`: the cells afterwards and the
returned output position. -/
def heapSortCopy (heap : StdHeap α) (less : α → α → Bool) (cells : List α)
    (first beyond result : Nat) : List α × Nat :=
  let tmp := slice cells first beyond
  let tmp := heapSort heap less tmp 0 tmp.length
  (splice cells result tmp, result + tmp.length)

/-- `quick_sort(first, beyond, result, less)`: the cells afterwards and the
returned output position. The partition at the top is spelled out in this
overload, not called. -/
def quickSortCopy (part : StdPartition α) (less : α → α → Bool) (depth : Nat)
    (cells : List α) (first beyond result : Nat) : Option (List α × Nat) :=
  let tmp := slice cells first beyond
  let finish := tmp.length
  let sorted :=
    if 0 ≠ finish then
      match tmp[0]? with
      | none => none
      | some pivot =>
        let (ys, k) := part.run (fun x => less x pivot) (slice tmp 0 finish)
        let middle := 0 + k
        (quickSort part less depth (splice tmp 0 ys) 0 middle).bind
          fun tmp => quickSort part less depth tmp (max (0 + 1) middle) finish
    else some tmp
  sorted.map fun tmp => (splice cells result tmp, result + tmp.length)

/-! ## What a copying overload leaves behind -/

/-- The effect of `std::copy` of `out` to the position `result`, for a source
range `[first, beyond)` of the same cells. -/
structure WritesOut (cells : List α) (first beyond result : Nat) (out final : List α)
    (returned : Nat) : Prop where
  written : slice final result (result + out.length) = out
  advanced : returned = result + (beyond - first)
  frame : ∀ i, i < result ∨ result + (beyond - first) ≤ i → final[i]? = cells[i]?
  source_kept : beyond ≤ result ∨ result + (beyond - first) ≤ first →
    slice final first beyond = slice cells first beyond

/-- Writing a sequence of the source's length has that effect, overlapping or
not. -/
theorem writesOut_splice (cells : List α) {first beyond result : Nat} {out : List α}
    (hlen : out.length = beyond - first) (hroom : result + (beyond - first) ≤ cells.length) :
    WritesOut cells first beyond result out (splice cells result out)
      (result + out.length) where
  written := slice_splice cells out (by omega)
  advanced := by rw [hlen]
  frame i hi := splice_getElem?_frame cells out (by omega) (by omega)
  source_kept hd := slice_splice_disjoint cells out (by omega) (by omega)

/-! ## `quick_sort` -/

/-- The first level spelled out in the copying overload is a call of the
in-place function on the temporary. -/
theorem quickSortCopy_eq (part : StdPartition α) (less : α → α → Bool) (depth : Nat)
    (cells : List α) (first beyond result : Nat) :
    quickSortCopy part less depth cells first beyond result
      = (quickSort part less (depth + 1) (slice cells first beyond) 0
          (slice cells first beyond).length).map
          fun tmp => (splice cells result tmp, result + tmp.length) := rfl

/-- In-place `quick_sort` of a whole vector. -/
theorem quickSort_vector (part : StdPartition α) {less : α → α → Bool}
    (hirr : Irreflexive less) (v : List α) :
    ∃ out, sortRange part less (v.length + 1) v = some out ∧ out.Perm v ∧
      ∀ depth, v.length < depth → quickSort part less depth v 0 v.length = some out := by
  obtain ⟨out, hout, hperm, hrun⟩ :=
    quickSort_result part hirr v (Nat.zero_le v.length) (Nat.le_refl v.length)
  rw [slice_full] at hout hperm
  refine ⟨out, hout, hperm, ?_⟩
  intro depth hd
  have hwhole : splice v 0 out = out := by
    simp [splice, hperm.length_eq]
  rw [hrun depth hd, hwhole]

/-- The copying `quick_sort` writes what the in-place one leaves on a copy of
the source. -/
theorem quickSortCopy_writes (part : StdPartition α) {less : α → α → Bool}
    (hirr : Irreflexive less) (cells : List α) {first beyond result : Nat}
    (hb : beyond ≤ cells.length)
    (hroom : result + (beyond - first) ≤ cells.length) :
    ∃ out final returned,
      (∀ depth, beyond - first < depth →
        quickSort part less depth (slice cells first beyond) 0
          (slice cells first beyond).length = some out ∧
        quickSortCopy part less depth cells first beyond result = some (final, returned)) ∧
      WritesOut cells first beyond result out final returned := by
  obtain ⟨out, -, hperm, hrun⟩ := quickSort_vector part hirr (slice cells first beyond)
  have hsl : (slice cells first beyond).length = beyond - first := slice_length cells hb
  have hlen : out.length = beyond - first := by rw [hperm.length_eq, hsl]
  refine ⟨out, splice cells result out, result + out.length, ?_,
    writesOut_splice cells hlen hroom⟩
  intro depth hd
  refine ⟨hrun depth (by omega), ?_⟩
  rw [quickSortCopy_eq, hrun (depth + 1) (by omega), Option.map_some]

/-! ## `heap_sort` -/

/-- In-place `heap_sort` of a whole vector permutes it into sorted order. -/
theorem heapSort_vector (heap : StdHeap α) {less : α → α → Bool} (hless : StrictWeak less)
    (v : List α) :
    (heapSort heap less v 0 v.length).Perm v ∧
      Sorted less (heapSort heap less v 0 v.length) := by
  have hmake := heap.makeHeap_perm hless v
  have hheap := heap.makeHeap_isHeap hless v
  have hsort := heap.sortHeap_perm hless _ hheap
  -- both library calls are on the whole vector, so nothing is written back in part
  have hmade : splice v 0 (heap.makeHeap less v) = heap.makeHeap less v := by
    simp [splice, hmake.length_eq]
  have hread : slice (heap.makeHeap less v) 0 v.length = heap.makeHeap less v := by
    rw [← hmake.length_eq, slice_full]
  have heq : heapSort heap less v 0 v.length = heap.sortHeap less (heap.makeHeap less v) := by
    simp only [heapSort, slice_full, hmade, hread]
    simp [splice, hsort.length_eq]
  rw [heq]
  exact ⟨hsort.trans hmake, heap.sortHeap_sorted hless _ hheap⟩

/-- The copying `heap_sort` writes what the in-place one leaves on a copy of
the source. -/
theorem heapSortCopy_writes (heap : StdHeap α) {less : α → α → Bool}
    (hless : StrictWeak less) (cells : List α) {first beyond result : Nat}
    (hb : beyond ≤ cells.length)
    (hroom : result + (beyond - first) ≤ cells.length) :
    ∃ final returned,
      heapSortCopy heap less cells first beyond result = (final, returned) ∧
      WritesOut cells first beyond result
        (heapSort heap less (slice cells first beyond) 0 (slice cells first beyond).length)
        final returned := by
  have hlen : (heapSort heap less (slice cells first beyond) 0
      (slice cells first beyond).length).length = beyond - first := by
    rw [(heapSort_vector heap hless _).1.length_eq, slice_length cells hb]
  exact ⟨_, _, rfl, writesOut_splice cells hlen hroom⟩

/-! ## All entry points together -/

/-- What the two overloads of `quick_sort` and the two of `heap_sort` do to a
source range, for a strict weak order. -/
def OverloadsAgree (part : StdPartition α) (heap : StdHeap α) (less : α → α → Bool)
    (cells : List α) (first beyond result : Nat) : Prop :=
  let v := slice cells first beyond
  (∃ out final returned,
    (∀ depth, beyond - first < depth →
      quickSort part less depth v 0 v.length = some out ∧
      quickSortCopy part less depth cells first beyond result = some (final, returned)) ∧
    WritesOut cells first beyond result out final returned) ∧
  ∃ final returned,
    heapSortCopy heap less cells first beyond result = (final, returned) ∧
    WritesOut cells first beyond result (heapSort heap less v 0 v.length) final returned

/-- The sequence that all entry points and both library sorts arrive at. -/
def AllSortTo (part : StdPartition α) (heap : StdHeap α) (sort stableSort : StdSort α)
    (less : α → α → Bool) (cells : List α) (first beyond result : Nat) (out : List α) : Prop :=
  let v := slice cells first beyond
  (∀ depth, beyond - first < depth → quickSort part less depth v 0 v.length = some out) ∧
  (∃ final, (∀ depth, beyond - first < depth →
      quickSortCopy part less depth cells first beyond result
        = some (final, result + v.length)) ∧
    slice final result (result + v.length) = out) ∧
  heapSort heap less v 0 v.length = out ∧
  slice (heapSortCopy heap less cells first beyond result).1 result (result + v.length) = out ∧
  sort.run less v = out ∧
  stableSort.run less v = out

/-- Over a linear order the four entry points and both library sorts arrive at
one sequence: each yields the one ascending arrangement of the source. -/
theorem all_sort_to [LinearOrder α] (part : StdPartition α) (hput : part.KeepsPut)
    (heap : StdHeap α) (sort stableSort : StdSort α) (cells : List α)
    {first beyond result : Nat} (hb : beyond ≤ cells.length)
    (hroom : result + (beyond - first) ≤ cells.length) :
    ∃ out, AllSortTo part heap sort stableSort lessOf cells first beyond result out := by
  have hless := lessOf_strictWeak (α := α)
  have hsl : (slice cells first beyond).length = beyond - first := slice_length cells hb
  obtain ⟨out, hout, hperm, hrun⟩ :=
    quickSort_vector part hless.irreflexive (slice cells first beyond)
  have hsorted : Sorted lessOf out := sortRange_sorted hput hless _ _ _ hout
  have hlen : out.length = beyond - first := by rw [hperm.length_eq, hsl]
  -- a linear order has one sorted arrangement, whoever arrives at it
  have hunique : ∀ ys : List α, ys.Perm (slice cells first beyond) → Sorted lessOf ys →
      ys = out := fun ys hp hs => sorted_perm_unique hs hsorted (hp.trans hperm.symm)
  have hread : slice (splice cells result out) result
      (result + (slice cells first beyond).length) = out := by
    rw [← hperm.length_eq]
    exact slice_splice cells out (by omega)
  have hheap : heapSort heap lessOf (slice cells first beyond) 0
      (slice cells first beyond).length = out :=
    hunique _ (heapSort_vector heap hless _).1 (heapSort_vector heap hless _).2
  refine ⟨out, fun depth hd => hrun depth (by omega),
    ⟨splice cells result out, ?_, hread⟩, hheap, ?_,
    hunique _ (sort.perm hless _) (sort.sorted hless _),
    hunique _ (stableSort.perm hless _) (stableSort.sorted hless _)⟩
  · intro depth hd
    rw [quickSortCopy_eq, hrun (depth + 1) (by omega), Option.map_some, hperm.length_eq]
  · simp only [heapSortCopy, hheap]
    exact hread

/-- **The overloads agree.** On every source range and every output position
with room for it, each copying overload writes what its in-place form leaves
on a copy of the source, returns the advanced position, and leaves a source
it does not overlap unchanged; on vectors of ints all entry points yield the
sequence that `std::sort` and `std::stable_sort` yield. -/
theorem overloads_agree (part : StdPartition α) (heap : StdHeap α) {less : α → α → Bool}
    (hless : StrictWeak less) (cells : List α) {first beyond result : Nat}
    (hb : beyond ≤ cells.length) (hroom : result + (beyond - first) ≤ cells.length)
    (ipart : StdPartition Int) (hput : ipart.KeepsPut) (iheap : StdHeap Int)
    (sort stableSort : StdSort Int) (icells : List Int) {ifirst ibeyond iresult : Nat}
    (hib : ibeyond ≤ icells.length)
    (hiroom : iresult + (ibeyond - ifirst) ≤ icells.length) :
    OverloadsAgree part heap less cells first beyond result ∧
      ∃ out, AllSortTo ipart iheap sort stableSort lessOf icells ifirst ibeyond iresult out :=
  ⟨⟨quickSortCopy_writes part hless.irreflexive cells hb hroom,
      heapSortCopy_writes heap hless cells hb hroom⟩,
    all_sort_to ipart hput iheap sort stableSort icells hib hiroom⟩

/-- The theorem on `3, 1, 2` with an output that overlaps the source in two
cells, with merge sorts and the order-keeping partition for the library. -/
theorem overloads_agree_three_cells :
    OverloadsAgree stablePartition mergeStdHeap (lessOf (α := Int)) [3, 1, 2, 0] 0 3 1 ∧
      ∃ out, AllSortTo stablePartition mergeStdHeap mergeStdSort mergeStdSort lessOf
        ([3, 1, 2, 0] : List Int) 0 3 1 out :=
  overloads_agree stablePartition mergeStdHeap lessOf_strictWeak [3, 1, 2, 0] (by decide)
    (by decide) stablePartition stablePartition_keepsPut mergeStdHeap mergeStdSort
    mergeStdSort [3, 1, 2, 0] (by decide) (by decide)

end Satf.Sort
