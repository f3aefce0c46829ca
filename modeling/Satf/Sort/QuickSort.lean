import Satf.Lib.Slice
import Satf.Lib.StdPartition

/-!
# `quick_sort`, in place

`quicksort.h` sorts the range `[first, beyond)` of a sequence: partition it by
"is less than the first element", sort the part before the boundary, and sort
the part from `max(first + 1, middle)` on. The pivot is not kept apart. It
lands somewhere in the right part when `middle > first`; when nothing is
smaller, `middle == first` and the recursion skips the cell `*first` without
looking at it again.

`quickSort` is that function on cells and positions, `sortRange` is the same
recursion on the contents of the range alone, and `quickSort_eq` says that
the first is the second, written back between untouched sides. The C++
recursion need not end for every comparator, so both take a depth of nested
calls and return `none` when it is used up; `sortRange_total` shows that with
an irreflexive comparator one level more than the length of the range is
always enough.

> `quickSort_sorts`: with a strict weak order, and a partition that moves
> nothing when nothing satisfies the predicate, the range is left sorted.
-/

namespace Satf.Sort

open Satf.Lib

variable {α : Type}

/-- `quick_sort(first, beyond, less)` on the cells of a sequence; `depth`
bounds the nested calls. -/
def quickSort (part : StdPartition α) (less : α → α → Bool) :
    Nat → List α → Nat → Nat → Option (List α)
  | 0, _, _, _ => none
  | depth + 1, cells, first, beyond =>
    if first ≠ beyond then
      match cells[first]? with
      | none => none
      | some pivot =>
        -- `bind2nd(less, *first)` copies the pivot before anything moves
        let (ys, k) := part.run (fun x => less x pivot) (slice cells first beyond)
        let middle := first + k
        (quickSort part less depth (splice cells first ys) first middle).bind
          fun cells => quickSort part less depth cells (max (first + 1) middle) beyond
    else some cells

/-- The same recursion on the contents of the range. Between the two parts
that are sorted lies the skipped cell, if the boundary is at the start. -/
def sortRange (part : StdPartition α) (less : α → α → Bool) :
    Nat → List α → Option (List α)
  | 0, _ => none
  | _ + 1, [] => some []
  | depth + 1, pivot :: xs =>
    let (ys, k) := part.run (fun x => less x pivot) (pivot :: xs)
    (sortRange part less depth (ys.take k)).bind fun lo =>
      (sortRange part less depth (ys.drop (max 1 k))).map fun hi =>
        lo ++ (ys.take (max 1 k)).drop k ++ hi

/-! ## The recursion on contents -/

/-- One level of `sortRange`: what a successful run on a non-empty range did. -/
theorem sortRange_cons {part : StdPartition α} {less : α → α → Bool} {depth : Nat}
    {pivot : α} {xs out : List α}
    (h : sortRange part less (depth + 1) (pivot :: xs) = some out) :
    ∃ ys k lo hi, part.run (fun x => less x pivot) (pivot :: xs) = (ys, k) ∧
      sortRange part less depth (ys.take k) = some lo ∧
      sortRange part less depth (ys.drop (max 1 k)) = some hi ∧
      out = lo ++ (ys.take (max 1 k)).drop k ++ hi := by
  cases hrun : part.run (fun x => less x pivot) (pivot :: xs) with
  | mk ys k =>
    simp only [sortRange, hrun, Option.bind_eq_some_iff, Option.map_eq_some_iff] at h
    obtain ⟨lo, hlo, hi, hhi, hout⟩ := h
    exact ⟨ys, k, lo, hi, rfl, hlo, hhi, hout.symm⟩

/-- The three blocks around the boundary make up the partitioned range. -/
theorem take_skip_drop (ys : List α) (k : Nat) :
    ys.take k ++ (ys.take (max 1 k)).drop k ++ ys.drop (max 1 k) = ys := by
  have htake : ys.take k = (ys.take (max 1 k)).take k := by
    rw [List.take_take, Nat.min_eq_left (Nat.le_max_right 1 k)]
  rw [htake, List.take_append_drop, List.take_append_drop]

/-- Whatever it returns, `sortRange` has permuted the range. -/
theorem sortRange_perm (part : StdPartition α) (less : α → α → Bool) :
    ∀ (depth : Nat) (xs out : List α), sortRange part less depth xs = some out →
      out.Perm xs := by
  intro depth
  induction depth with
  | zero => intro xs out h; simp [sortRange] at h
  | succ depth ih =>
    intro xs out h
    cases xs with
    | nil =>
      simp only [sortRange, Option.some.injEq] at h
      rw [← h]
    | cons pivot xs =>
      obtain ⟨ys, k, lo, hi, hrun, hlo, hhi, rfl⟩ := sortRange_cons h
      have hys := (part.run_spec hrun).1
      have hblocks : (lo ++ (ys.take (max 1 k)).drop k ++ hi).Perm
          (ys.take k ++ (ys.take (max 1 k)).drop k ++ ys.drop (max 1 k)) :=
        ((ih _ _ hlo).append_right _).append (ih _ _ hhi)
      rw [take_skip_drop] at hblocks
      exact hblocks.trans hys

/-- One level of `sortRange` by where the boundary is. At the start, the first
cell is skipped, whatever the partition has put there; past it, the two groups
are sorted. -/
theorem sortRange_split {part : StdPartition α} {less : α → α → Bool} {depth : Nat}
    {pivot : α} {xs out : List α}
    (h : sortRange part less (depth + 1) (pivot :: xs) = some out) :
    (∃ skipped rest hi, part.run (fun x => less x pivot) (pivot :: xs) = (skipped :: rest, 0) ∧
      (∀ x ∈ pivot :: xs, less x pivot = false) ∧
      sortRange part less depth rest = some hi ∧ out = skipped :: hi) ∨
    ∃ left right lo hi,
      part.run (fun x => less x pivot) (pivot :: xs) = (left ++ right, left.length) ∧
      left ≠ [] ∧ (∀ x ∈ left, less x pivot = true) ∧ (∀ x ∈ right, less x pivot = false) ∧
      sortRange part less depth left = some lo ∧ sortRange part less depth right = some hi ∧
      out = lo ++ hi := by
  obtain ⟨ys, k, lo, hi, hrun, hlo, hhi, rfl⟩ := sortRange_cons h
  obtain ⟨hys, hk, hbefore, hafter⟩ := part.run_spec hrun
  rcases Nat.eq_zero_or_pos k with hzero | hpos
  · subst hzero
    cases ys with
    | nil => exact absurd hys.length_eq (by simp)
    | cons skipped rest =>
      have hlonil : lo = [] := by simpa using sortRange_perm part less _ _ _ hlo
      subst hlonil
      exact .inl ⟨skipped, rest, hi, hrun, part.none_of_boundary_zero (by rw [hrun]), hhi, rfl⟩
  · have hmax : max 1 k = k := by omega
    have htk : (ys.take k).length = k := by
      rw [List.length_take]
      omega
    rw [hmax] at hhi
    refine .inr ⟨ys.take k, ys.drop k, lo, hi, ?_, ?_, hbefore, hafter, hlo, hhi, ?_⟩
    · rw [hrun, List.take_append_drop, htk]
    · intro hnil
      rw [hnil] at htk
      simp only [List.length_nil] at htk
      omega
    · rw [hmax, List.drop_of_length_le (by omega), List.append_nil]

/-- **Termination**: the pivot is not less than itself, so the boundary stays
off the end, and the cell at `first` is never passed on to the right part. -/
theorem sortRange_total (part : StdPartition α) {less : α → α → Bool}
    (hirr : Irreflexive less) :
    ∀ (depth : Nat) (xs : List α), xs.length < depth →
      ∃ out, sortRange part less depth xs = some out := by
  intro depth
  induction depth with
  | zero => intro xs h; exact absurd h (by omega)
  | succ depth ih =>
    intro xs h
    cases xs with
    | nil => exact ⟨[], rfl⟩
    | cons pivot xs =>
      have hlt : (part.run (fun x => less x pivot) (pivot :: xs)).2 < (pivot :: xs).length :=
        part.boundary_lt (List.mem_cons_self ..) (hirr pivot)
      have hlen := part.run_length (fun x => less x pivot) (pivot :: xs)
      cases hrun : part.run (fun x => less x pivot) (pivot :: xs) with
      | mk ys k =>
        rw [hrun] at hlt hlen
        simp only [List.length_cons] at h hlt hlen
        -- left: `k` is below the length; right: at least one cell is dropped
        obtain ⟨lo, hlo⟩ := ih (ys.take k) (by rw [List.length_take]; omega)
        obtain ⟨hi, hhi⟩ := ih (ys.drop (max 1 k)) (by rw [List.length_drop]; omega)
        exact ⟨lo ++ (ys.take (max 1 k)).drop k ++ hi, by simp [sortRange, hrun, hlo, hhi]⟩

/-- More depth does not change a result. -/
theorem sortRange_mono (part : StdPartition α) (less : α → α → Bool) :
    ∀ (depth more : Nat) (xs out : List α), depth ≤ more →
      sortRange part less depth xs = some out → sortRange part less more xs = some out := by
  intro depth
  induction depth with
  | zero => intro more xs out _ h; simp [sortRange] at h
  | succ depth ih =>
    intro more xs out hle h
    obtain ⟨more, rfl⟩ : ∃ m, more = m + 1 := ⟨more - 1, by omega⟩
    cases xs with
    | nil => exact h
    | cons pivot xs =>
      obtain ⟨ys, k, lo, hi, hrun, hlo, hhi, rfl⟩ := sortRange_cons h
      have hlo' := ih more _ _ (by omega) hlo
      have hhi' := ih more _ _ (by omega) hhi
      simp [sortRange, hrun, hlo', hhi']

/-- With a partition that leaves a range alone when nothing is to be moved,
`sortRange` sorts. Either nothing is smaller than the pivot, and the skipped
cell still holds it, or the pivot separates the two parts. -/
theorem sortRange_sorted {part : StdPartition α} (hput : part.KeepsPut)
    {less : α → α → Bool} (hless : StrictWeak less) :
    ∀ (depth : Nat) (xs out : List α), sortRange part less depth xs = some out →
      Sorted less out := by
  intro depth
  induction depth with
  | zero => intro xs out h; simp [sortRange] at h
  | succ depth ih =>
    intro xs out h
    cases xs with
    | nil =>
      simp only [sortRange, Option.some.injEq] at h
      rw [← h]
      exact List.Pairwise.nil
    | cons pivot xs =>
      rcases sortRange_split h with ⟨skipped, rest, hi, hrun, hnone, hhi, rfl⟩ |
        ⟨left, right, lo, hi, -, -, hleft, hright, hlo, hhi, rfl⟩
      · -- nothing is smaller: the partition left `pivot :: xs` alone
        have hkept := hput _ _ hnone
        rw [hrun, List.cons.injEq] at hkept
        obtain ⟨rfl, rfl⟩ := hkept
        have hhip := sortRange_perm part less _ _ _ hhi
        refine List.pairwise_cons.mpr ⟨?_, ih _ _ hhi⟩
        intro y hy
        exact hnone y (List.mem_cons_of_mem _ (hhip.mem_iff.mp hy))
      · -- the pivot separates the two parts
        have hlop := sortRange_perm part less _ _ _ hlo
        have hhip := sortRange_perm part less _ _ _ hhi
        refine sorted_append (ih _ _ hlo) (ih _ _ hhi) ?_
        intro x hx y hy
        exact hless.not_less_of_pivot (hleft x (hlop.mem_iff.mp hx))
          (hright y (hhip.mem_iff.mp hy))

/-! ## The in-place function is the recursion on contents, written back -/

/-- `quickSort` on the middle block of a split sequence sorts that block by
`sortRange` and leaves both sides as they are. -/
theorem quickSort_append (part : StdPartition α) (less : α → α → Bool) :
    ∀ (depth : Nat) (pre mid post : List α),
      quickSort part less depth (pre ++ mid ++ post) pre.length (pre.length + mid.length)
        = (sortRange part less depth mid).map fun out => pre ++ out ++ post := by
  intro depth
  induction depth with
  | zero => intro pre mid post; rfl
  | succ depth ih =>
    intro pre mid post
    cases mid with
    | nil => simp [quickSort, sortRange]
    | cons pivot xs =>
      have hne : pre.length ≠ pre.length + (pivot :: xs).length := by
        simp only [List.length_cons]
        omega
      have hread : (pre ++ pivot :: xs ++ post)[pre.length]? = some pivot := by
        simp
      cases hrun : part.run (fun x => less x pivot) (pivot :: xs) with
      | mk ys k =>
        obtain ⟨hys, hk, -, -⟩ := part.run_spec hrun
        have hylen := hys.length_eq
        have htk : (ys.take k).length = k := by
          rw [List.length_take]
          omega
        -- the left call works on the block of the first `k` cells
        have hleft := ih pre (ys.take k) (ys.drop k ++ post)
        rw [htk] at hleft
        have hmid : pre ++ ys.take k ++ (ys.drop k ++ post) = pre ++ ys ++ post := by
          rw [← List.append_assoc, List.append_assoc pre, List.take_append_drop]
        rw [hmid] at hleft
        simp only [quickSort, if_pos hne, hread, slice_append, hrun,
          splice_append pre (pivot :: xs) post ys hylen, sortRange, hleft]
        cases hlo : sortRange part less depth (ys.take k) with
        | none => rfl
        | some lo =>
          have hlolen : lo.length = k := by
            rw [(sortRange_perm part less _ _ _ hlo).length_eq, htk]
          -- the right call works on the block behind `max(first + 1, middle)`
          have hright := ih (pre ++ lo ++ (ys.take (max 1 k)).drop k)
            (ys.drop (max 1 k)) post
          have hskip : (pre ++ lo ++ (ys.take (max 1 k)).drop k).length
              = max (pre.length + 1) (pre.length + k) := by
            simp only [List.length_append, List.length_drop, List.length_take, hlolen,
              List.length_cons] at hylen ⊢
            omega
          have hend : (pre ++ lo ++ (ys.take (max 1 k)).drop k).length
              + (ys.drop (max 1 k)).length = pre.length + (pivot :: xs).length := by
            rw [hskip, List.length_drop]
            simp only [List.length_cons] at hylen ⊢
            omega
          have hcells : pre ++ lo ++ (ys.take (max 1 k)).drop k
              ++ ys.drop (max 1 k) ++ post = pre ++ lo ++ (ys.drop k ++ post) := by
            have hdrop : (ys.take (max 1 k)).drop k ++ ys.drop (max 1 k) = ys.drop k := by
              have h := congrArg (List.drop k) (List.take_append_drop (max 1 k) ys)
              rw [List.drop_append_of_le_length (by
                simp only [List.length_take, List.length_cons] at hylen ⊢
                omega)] at h
              exact h
            rw [List.append_assoc (pre ++ lo), hdrop, List.append_assoc]
          rw [hend, hskip, hcells] at hright
          simp only [Option.map_some, Option.bind_some, hright, Option.map_map]
          congr 1
          funext hi
          simp only [Function.comp_apply, List.append_assoc]

/-- The in-place function on any range of any sequence. -/
theorem quickSort_eq (part : StdPartition α) (less : α → α → Bool) (depth : Nat)
    (cells : List α) {first beyond : Nat} (hfb : first ≤ beyond)
    (hb : beyond ≤ cells.length) :
    quickSort part less depth cells first beyond
      = (sortRange part less depth (slice cells first beyond)).map
          (splice cells first) := by
  have hfirst : (cells.take first).length = first := by
    rw [List.length_take]
    omega
  have hsl : (slice cells first beyond).length = beyond - first := slice_length cells hb
  have h := quickSort_append part less depth (cells.take first)
    (slice cells first beyond) (cells.drop beyond)
  rw [← slice_split cells hfb, hfirst, hsl, Nat.add_sub_cancel' hfb] at h
  rw [h]
  cases hs : sortRange part less depth (slice cells first beyond) with
  | none => rfl
  | some out =>
    have hlen : out.length = beyond - first := by
      rw [(sortRange_perm part less _ _ _ hs).length_eq, hsl]
    rw [Option.map_some, Option.map_some, splice, hlen, Nat.add_sub_cancel' hfb]

/-- The result of `quick_sort` on a range, whatever the depth it is given
beyond the one that is needed. -/
theorem quickSort_result (part : StdPartition α) {less : α → α → Bool}
    (hirr : Irreflexive less) (cells : List α) {first beyond : Nat} (hfb : first ≤ beyond)
    (hb : beyond ≤ cells.length) :
    ∃ out, sortRange part less (beyond - first + 1) (slice cells first beyond) = some out ∧
      out.Perm (slice cells first beyond) ∧
      ∀ depth, beyond - first < depth →
        quickSort part less depth cells first beyond = some (splice cells first out) := by
  obtain ⟨out, hout⟩ := sortRange_total part hirr (beyond - first + 1)
    (slice cells first beyond) (by rw [slice_length cells hb]; omega)
  refine ⟨out, hout, sortRange_perm part less _ _ _ hout, ?_⟩
  intro depth hd
  rw [quickSort_eq part less depth cells hfb hb,
    sortRange_mono part less _ depth _ _ hd hout, Option.map_some]

/-- The function keeps the number of cells. -/
theorem quickSort_length {part : StdPartition α} {less : α → α → Bool}
    {depth first beyond : Nat} {cells cells' : List α} (hfb : first ≤ beyond)
    (hb : beyond ≤ cells.length) (h : quickSort part less depth cells first beyond = some cells') :
    cells'.length = cells.length := by
  rw [quickSort_eq part less depth cells hfb hb] at h
  obtain ⟨out, hout, rfl⟩ := Option.map_eq_some_iff.mp h
  have hlen := (sortRange_perm part less _ _ _ hout).length_eq
  rw [slice_length cells hb] at hlen
  exact splice_length cells out (by omega)

/-- The function permutes its range and leaves the other cells alone. -/
theorem quickSort_perm_frame {part : StdPartition α} {less : α → α → Bool}
    {depth first beyond : Nat} {cells cells' : List α} (hfb : first ≤ beyond)
    (hb : beyond ≤ cells.length) (h : quickSort part less depth cells first beyond = some cells') :
    (slice cells' first beyond).Perm (slice cells first beyond) ∧
      ∀ i, i < first ∨ beyond ≤ i → cells'[i]? = cells[i]? := by
  rw [quickSort_eq part less depth cells hfb hb] at h
  obtain ⟨out, hout, rfl⟩ := Option.map_eq_some_iff.mp h
  have hperm := sortRange_perm part less _ _ _ hout
  have hlen := hperm.length_eq
  rw [slice_length cells hb] at hlen
  constructor
  · rw [slice_splice_range cells hfb hb hlen]
    exact hperm
  · intro i hi
    exact splice_getElem?_frame cells out (by omega) (by omega)

/-- **`quick_sort` sorts.** On every range of every sequence the in-place
function ends and leaves a permutation of the range in which no later element
is `less` than an earlier one; cells outside the range are as before. -/
theorem quickSort_sorts (part : StdPartition α) (hput : part.KeepsPut)
    {less : α → α → Bool} (hless : StrictWeak less) (cells : List α) {first beyond : Nat}
    (hfb : first ≤ beyond) (hb : beyond ≤ cells.length) :
    ∃ cells', (∀ depth, beyond - first < depth →
        quickSort part less depth cells first beyond = some cells') ∧
      (slice cells' first beyond).Perm (slice cells first beyond) ∧
      Sorted less (slice cells' first beyond) ∧
      ∀ i, i < first ∨ beyond ≤ i → cells'[i]? = cells[i]? := by
  obtain ⟨out, hout, hperm, hrun⟩ := quickSort_result part hless.irreflexive cells hfb hb
  obtain ⟨hcells, hframe⟩ := quickSort_perm_frame hfb hb (hrun _ (Nat.lt_succ_self _))
  refine ⟨splice cells first out, hrun, hcells, ?_, hframe⟩
  rw [slice_splice_range cells hfb hb (by rw [hperm.length_eq, slice_length cells hb])]
  exact sortRange_sorted hput hless _ _ _ hout

/-- The theorem on the vector `2, 1, 2`, with the order-keeping partition. -/
theorem quickSort_sorts_two_one_two :
    ∃ cells', (∀ depth, 3 - 0 < depth →
        quickSort stablePartition (lessOf (α := Int)) depth [2, 1, 2] 0 3 = some cells') ∧
      (slice cells' 0 3).Perm (slice [2, 1, 2] 0 3) ∧
      Sorted lessOf (slice cells' 0 3) ∧
      ∀ i, i < 0 ∨ 3 ≤ i → cells'[i]? = ([2, 1, 2] : List Int)[i]? :=
  quickSort_sorts stablePartition stablePartition_keepsPut lessOf_strictWeak [2, 1, 2]
    (by decide) (by decide)

end Satf.Sort
