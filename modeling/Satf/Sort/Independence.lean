import Satf.Sort.QuickSort

/-!
# When `quick_sort` depends on the standard library

`quick_sort` skips the cell `*first` when nothing is smaller than the pivot,
and takes for granted that the pivot is still there. The contract of
`std::partition` does not promise it: a range with nothing to move may be
permuted all the same. So the result is independent of the library only where
no such range can hold two different values.

> `quickSort_independent_iff`: over a linear order, every two conforming
> partitions leave the same vector exactly when no element exceeds the first
> one and the elements below the first one are all equal.

In one direction every partition ends with the sorted vector; in the other
`adversePartition` leaves one that is not sorted, while `stablePartition`
sorts.
-/

namespace Satf.Sort

open Satf.Lib

variable {α : Type} [LinearOrder α]

/-- No element exceeds the first one, and the elements below the first one
are all equal: after one partition nothing is left to put in order. -/
def OneStepOrdered : List α → Prop
  | [] => True
  | pivot :: xs => (∀ x ∈ xs, x ≤ pivot) ∧ ∀ x ∈ xs, ∀ y ∈ xs, x < pivot → y < pivot → x = y

/-! ## Blocks of equal elements -/

/-- A sequence of equal elements is sorted however it is arranged. -/
theorem sorted_of_all_eq {xs : List α} {a : α} (h : ∀ x ∈ xs, x = a) : Sorted lessOf xs := by
  rw [sorted_lessOf_iff]
  refine List.Pairwise.imp_of_mem ?_ (List.pairwise_of_forall (fun _ _ => trivial))
  intro x y hx hy _
  rw [h x hx, h y hy]

/-- A vector ordered after one step is sorted by every conforming partition:
both parts hold one value only, so no arrangement of them matters. -/
theorem sortRange_oneStep (part : StdPartition α) {depth : Nat} {xs out : List α}
    (hone : OneStepOrdered xs) (h : sortRange part lessOf depth xs = some out) :
    Sorted lessOf out := by
  cases depth with
  | zero => simp [sortRange] at h
  | succ depth =>
    cases xs with
    | nil =>
      simp only [sortRange, Option.some.injEq] at h
      rw [← h]
      exact List.Pairwise.nil
    | cons pivot xs =>
      obtain ⟨hle, heq⟩ := hone
      have hout := sortRange_perm part lessOf _ _ _ h
      have hmem : ∀ x ∈ pivot :: xs, x ≤ pivot := by
        intro x hx
        rcases List.mem_cons.mp hx with rfl | hx
        · exact le_refl x
        · exact hle x hx
      rcases sortRange_split h with ⟨skipped, rest, hi, -, hnone, -, rfl⟩ |
        ⟨left, right, lo, hi, -, -, hleft, hright, hlo, hhi, rfl⟩
      · -- nothing below the pivot and nothing above it: all elements are equal
        refine sorted_of_all_eq (a := pivot) ?_
        intro x hx
        have hx' := hout.mem_iff.mp hx
        exact le_antisymm (hmem x hx') (lessOf_eq_false.mp (hnone x hx'))
      · have hlop := sortRange_perm part lessOf _ _ _ hlo
        have hhip := sortRange_perm part lessOf _ _ _ hhi
        have hbefore : ∀ x ∈ lo, x < pivot := fun x hx =>
          lessOf_eq_true.mp (hleft x (hlop.mem_iff.mp hx))
        have hafter : ∀ y ∈ hi, pivot ≤ y := fun y hy =>
          lessOf_eq_false.mp (hright y (hhip.mem_iff.mp hy))
        have hin : ∀ x ∈ lo, x ∈ xs := by
          intro x hx
          have hx' := hout.mem_iff.mp (List.mem_append_left hi hx)
          rcases List.mem_cons.mp hx' with rfl | hx'
          · exact absurd (hbefore x hx) (lt_irrefl x)
          · exact hx'
        have hlos : Sorted lessOf lo := by
          cases lo with
          | nil => exact List.Pairwise.nil
          | cons a lo =>
            refine sorted_of_all_eq (a := a) ?_
            intro x hx
            exact heq x (hin x hx) a (hin a (List.mem_cons_self ..)) (hbefore x hx)
              (hbefore a (List.mem_cons_self ..))
        have hhis : Sorted lessOf hi := by
          refine sorted_of_all_eq (a := pivot) ?_
          intro y hy
          exact le_antisymm (hmem y (hout.mem_iff.mp (List.mem_append_right lo hy)))
            (hafter y hy)
        refine sorted_append hlos hhis ?_
        intro x hx y hy
        rw [lessOf_eq_false]
        exact le_trans (le_of_lt (hbefore x hx)) (hafter y hy)

/-! ## The partition that moves a range with nothing to move -/

/-- `adversePartition` on a range with nothing below the pivot: descending,
boundary at the start. -/
theorem adversePartition_none {p : α → Bool} {xs : List α} (hnone : ∀ x ∈ xs, p x = false) :
    adversePartition.run p xs = (descending xs, 0) := by
  obtain ⟨hfront, hback⟩ := groups_of_none hnone
  have hnil : ascending ([] : List α) = [] := (ascending_perm []).eq_nil
  show (ascending (xs.filter p) ++ (if xs.filter p = [] then
    descending (xs.filter (fun x => !p x)) else ascending (xs.filter (fun x => !p x))),
    (ascending (xs.filter p)).length) = _
  rw [if_pos hfront, hfront, hback, hnil]
  rfl

/-- `adversePartition` on a range with something below the pivot: both groups
ascending. -/
theorem adversePartition_some {p : α → Bool} {xs : List α} {x : α} (hx : x ∈ xs)
    (hp : p x = true) :
    adversePartition.run p xs
      = (ascending (xs.filter p) ++ ascending (xs.filter (fun x => !p x)),
          (ascending (xs.filter p)).length) := by
  have hfront : xs.filter p ≠ [] := by
    intro h
    rw [List.filter_eq_nil_iff] at h
    exact h x hx hp
  show (ascending (xs.filter p) ++ (if xs.filter p = [] then
    descending (xs.filter (fun x => !p x)) else ascending (xs.filter (fun x => !p x))),
    (ascending (xs.filter p)).length) = _
  rw [if_neg hfront]

/-- A vector that starts with its least element, and that the adverse
partition nevertheless leaves sorted, holds one value only: the greatest
element was moved to the front and skipped. -/
theorem adverse_min_head {depth : Nat} {pivot : α} {xs out : List α}
    (hmin : ∀ x ∈ pivot :: xs, pivot ≤ x)
    (h : sortRange adversePartition lessOf depth (pivot :: xs) = some out)
    (hs : Sorted lessOf out) : ∀ x ∈ pivot :: xs, x = pivot := by
  cases depth with
  | zero => simp [sortRange] at h
  | succ depth =>
    have hperm := sortRange_perm adversePartition lessOf _ _ _ h
    have hnone : ∀ x ∈ pivot :: xs, lessOf x pivot = false := fun x hx =>
      lessOf_eq_false.mpr (hmin x hx)
    rcases sortRange_split h with ⟨top, rest, hi, hrun, -, -, rfl⟩ |
      ⟨left, right, lo, hi, hrun, hne, -, -, -, -, rfl⟩
    · -- the greatest element was moved to the front, and is first in a sorted result
      rw [adversePartition_none hnone, Prod.mk.injEq] at hrun
      have hge := descending_head_ge hrun.1
      have hle : ∀ x ∈ pivot :: xs, top ≤ x := fun x hx =>
        sorted_head_le hs x (hperm.mem_iff.mpr hx)
      intro x hx
      exact le_antisymm ((hge x hx).trans (hle pivot (List.mem_cons_self ..)))
        (hmin x hx)
    · rw [adversePartition_none hnone, Prod.mk.injEq] at hrun
      exact absurd (List.length_eq_zero_iff.mp hrun.2.symm) hne

/-- An ascending vector that the adverse partition leaves sorted holds one
value only. -/
theorem adverse_ascending {depth : Nat} {xs out : List α} (ha : Sorted lessOf xs)
    (h : sortRange adversePartition lessOf depth xs = some out) (hs : Sorted lessOf out) :
    ∀ x ∈ xs, ∀ y ∈ xs, x = y := by
  cases xs with
  | nil => intro x hx; exact absurd hx List.not_mem_nil
  | cons a xs =>
    have hall := adverse_min_head (sorted_head_le ha) h hs
    intro x hx y hy
    rw [hall x hx, hall y hy]

/-- A vector that the adverse partition leaves sorted is ordered after one
step. -/
theorem adverse_sorted {depth : Nat} {xs out : List α}
    (h : sortRange adversePartition lessOf depth xs = some out) (hs : Sorted lessOf out) :
    OneStepOrdered xs := by
  cases xs with
  | nil => trivial
  | cons pivot xs =>
    by_cases hsome : ∃ x ∈ pivot :: xs, x < pivot
    · obtain ⟨x, hx, hlt⟩ := hsome
      cases depth with
      | zero => simp [sortRange] at h
      | succ depth =>
        have hbelow : lessOf x pivot = true := lessOf_eq_true.mpr hlt
        rcases sortRange_split h with ⟨skipped, rest, hi, -, hnone, -, rfl⟩ |
          ⟨left, right, lo, hi, hrun, -, -, -, hlo, hhi, rfl⟩
        · rw [hnone x hx] at hbelow
          cases hbelow
        rw [adversePartition_some hx hbelow, Prod.mk.injEq] at hrun
        obtain ⟨hgroups, hlen⟩ := hrun
        obtain ⟨rfl, rfl⟩ := List.append_inj hgroups hlen
        -- both groups were handed on in ascending order, so each holds one value
        have hlow := adverse_ascending (ascending_sorted _) hlo (List.pairwise_append.mp hs).1
        have hhigh := adverse_ascending (ascending_sorted _) hhi
          (List.pairwise_append.mp hs).2.1
        have hmemlow : ∀ y ∈ pivot :: xs, y < pivot →
            y ∈ ascending ((pivot :: xs).filter (fun x => lessOf x pivot)) := by
          intro y hy hylt
          exact (ascending_perm _).mem_iff.mpr
            (List.mem_filter.mpr ⟨hy, lessOf_eq_true.mpr hylt⟩)
        have hmemhigh : ∀ y ∈ pivot :: xs, pivot ≤ y →
            y ∈ ascending ((pivot :: xs).filter (fun x => !lessOf x pivot)) := by
          intro y hy hyge
          refine (ascending_perm _).mem_iff.mpr (List.mem_filter.mpr ⟨hy, ?_⟩)
          simp [lessOf_eq_false.mpr hyge]
        refine ⟨?_, ?_⟩
        · intro y hy
          by_contra hgt
          have hge : pivot ≤ y := le_of_lt (not_le.mp hgt)
          have heq := hhigh y (hmemhigh y (List.mem_cons_of_mem _ hy) hge) pivot
            (hmemhigh pivot (List.mem_cons_self ..) (le_refl _))
          exact hgt (le_of_eq heq)
        · intro y hy z hz hylt hzlt
          exact hlow y (hmemlow y (List.mem_cons_of_mem _ hy) hylt) z
            (hmemlow z (List.mem_cons_of_mem _ hz) hzlt)
    · have hmin : ∀ x ∈ pivot :: xs, pivot ≤ x := by
        intro x hx
        by_contra hlt
        exact hsome ⟨x, hx, not_le.mp hlt⟩
      have hall := adverse_min_head hmin h hs
      refine ⟨?_, ?_⟩
      · intro x hx
        exact le_of_eq (hall x (List.mem_cons_of_mem _ hx))
      · intro x hx y hy _ _
        rw [hall x (List.mem_cons_of_mem _ hx), hall y (List.mem_cons_of_mem _ hy)]

/-! ## Independence -/

/-- In-place `quick_sort` of a whole vector by `<`. -/
def quickSortVector (part : StdPartition α) (v : List α) : Option (List α) :=
  quickSort part lessOf (v.length + 1) v 0 v.length

/-- On a whole vector the in-place function is the recursion on contents. -/
theorem quickSortVector_eq (part : StdPartition α) (v : List α) :
    quickSortVector part v = sortRange part lessOf (v.length + 1) v := by
  have h := quickSort_append part lessOf (v.length + 1) [] v []
  simp only [List.nil_append, List.append_nil, List.length_nil, Nat.zero_add,
    Option.map_id'] at h
  exact h

theorem quickSortVector_total (part : StdPartition α) (v : List α) :
    ∃ out, quickSortVector part v = some out ∧ out.Perm v := by
  obtain ⟨out, hout⟩ := sortRange_total part lessOf_strictWeak.irreflexive (v.length + 1) v
    (Nat.lt_succ_self _)
  exact ⟨out, by rw [quickSortVector_eq, hout], sortRange_perm part lessOf _ _ _ hout⟩

/-- **Exactly where `quick_sort` does not depend on the library**: all
conforming partitions leave the same vector if and only if no element exceeds
the first one and the elements below the first one are all equal. -/
theorem quickSort_independent_iff (v : List α) :
    (∀ part part' : StdPartition α, quickSortVector part v = quickSortVector part' v)
      ↔ OneStepOrdered v := by
  constructor
  · intro hind
    obtain ⟨out, hout, -⟩ := quickSortVector_total (stablePartition (α := α)) v
    have hs : Sorted lessOf out := by
      rw [quickSortVector_eq] at hout
      exact sortRange_sorted stablePartition_keepsPut lessOf_strictWeak _ _ _ hout
    rw [hind stablePartition adversePartition, quickSortVector_eq] at hout
    exact adverse_sorted hout hs
  · intro hone part part'
    obtain ⟨out, hout, hperm⟩ := quickSortVector_total part v
    obtain ⟨out', hout', hperm'⟩ := quickSortVector_total part' v
    have hs := sortRange_oneStep part hone (quickSortVector_eq part v ▸ hout)
    have hs' := sortRange_oneStep part' hone (quickSortVector_eq part' v ▸ hout')
    rw [hout, hout', sorted_perm_unique hs hs' (hperm.trans hperm'.symm)]

/-- Two conforming partitions on the vector `1, 2`: nothing is smaller than
the pivot 1, and the second one exchanges the two cells before the first of
them is skipped. -/
theorem quickSort_one_two :
    quickSortVector stablePartition ([1, 2] : List Int) = some [1, 2] ∧
      quickSortVector adversePartition ([1, 2] : List Int) = some [2, 1] := by
  refine ⟨by decide, ?_⟩
  rw [quickSortVector_eq]
  simp [sortRange, adversePartition, StdPartition.ofGroups, ascending, descending,
    List.mergeSort, List.MergeSort.Internal.splitInTwo, List.filter, lessOf]

end Satf.Sort
