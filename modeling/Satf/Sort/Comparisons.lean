import Satf.Measure.CountLess
import Satf.Sort.Trace
import Mathlib.Tactic.Ring

/-!
# How many comparisons `quick_sort` makes

A call on `n` cells applies the predicate once to each of them and hands on
`k` cells to the left and `n - max(1, k)` to the right. As the pivot is not
kept apart, both parts together are again `n` cells unless `k = 0`, and the
worst case is larger than the textbook's `n (n + 1) / 2`.

The bound is carried doubled and one too large, `2 * c + 2 ≤ n^2 + 3 * n`:
then it is the same for both parts of every split, and `(k - 1) * (n - k - 1)`,
which is not negative, is what is left over.

> `quickSort_comparisons`: at most `(n^2 + 3n - 2) / 2` comparisons, exactly
> `n (n + 1) / 2` on an ascending range that the partition does not stir up,
> and a 32-bit counter that is right up to 92680 cells.
-/

namespace Satf.Sort

open Satf.Lib Satf.Measure

variable {α : Type}

/-- The comparisons among the events, in order. -/
def comparisons : List (Event α) → List (α × α)
  | [] => []
  | .less x pivot :: es => (x, pivot) :: comparisons es
  | .call _ :: es => comparisons es

@[simp] theorem comparisons_append (es fs : List (Event α)) :
    comparisons (es ++ fs) = comparisons es ++ comparisons fs := by
  induction es with
  | nil => rfl
  | cons e es ih =>
    cases e with
    | less x pivot => rw [List.cons_append, comparisons, ih, comparisons, List.cons_append]
    | call c => exact ih

@[simp] theorem comparisons_call (c : NestedCall) (es : List (Event α)) :
    comparisons (.call c :: es) = comparisons es := rfl

@[simp] theorem comparisons_less (xs : List α) (pivot : α) :
    comparisons (xs.map (Event.less · pivot)) = xs.map (·, pivot) := by
  induction xs with
  | nil => rfl
  | cons x xs ih => rw [List.map_cons, comparisons, ih, List.map_cons]

variable {part : OncePartition α} {less : α → α → Bool}

/-- The comparisons of one level: one for each cell, and those of the parts. -/
theorem comparisons_level {first beyond : Nat} {cells : List α} {p : α → Bool} {pivot : α}
    {left right : List (Event α)} {c d : NestedCall} (hb : beyond ≤ cells.length) :
    (comparisons ((part.applied p (slice cells first beyond)).map (Event.less · pivot)
        ++ .call c :: left ++ .call d :: right)).length
      = (beyond - first) + (comparisons left).length + (comparisons right).length := by
  simp only [comparisons_append, comparisons_call, comparisons_less, List.length_append,
    List.length_map, part.applied_length, slice_length cells hb]

/-! ## The worst case -/

/-- Two parts of at least one cell each stay below the bound of the whole. -/
theorem split_bound {k m c d : Nat} (hk : 0 < k) (hm : 0 < m) (hc : 2 * c + 2 ≤ k ^ 2 + 3 * k)
    (hd : 2 * d + 2 ≤ m ^ 2 + 3 * m) :
    2 * ((k + m) + c + d) + 2 ≤ (k + m) ^ 2 + 3 * (k + m) := by
  obtain ⟨a, rfl⟩ : ∃ a, k = a + 1 := ⟨k - 1, by omega⟩
  obtain ⟨b, rfl⟩ : ∃ b, m = b + 1 := ⟨m - 1, by omega⟩
  have hsquare : (a + 1 + (b + 1)) ^ 2
      = (a + 1) ^ 2 + (b + 1) ^ 2 + 2 * ((a + 1) * (b + 1)) := by ring
  -- what is left over is `2 * (a * b)`
  have hproduct : (a + 1) * (b + 1) = a * b + a + b + 1 := by ring
  omega

/-- A part with one cell less stays below the bound, too. -/
theorem skip_bound {m d : Nat} (hd : 2 * d ≤ m ^ 2 + 3 * m) :
    2 * ((m + 1) + d) + 2 ≤ (m + 1) ^ 2 + 3 * (m + 1) := by
  have hsquare : (m + 1) ^ 2 = m ^ 2 + 2 * m + 1 := by ring
  omega

/-- **The bound**, by induction on the depth. Empty parts make no comparison,
so the bound is used of parts with a cell only. -/
theorem comparisons_bound (hirr : Irreflexive less) :
    ∀ (depth level : Nat) (cells : List α) (first beyond : Nat) (cells' : List α)
      (es : List (Event α)), first < beyond → beyond ≤ cells.length →
      quickSortTrace part.toStdPartition part.applied less depth level cells first beyond
        = some (cells', es) →
      2 * (comparisons es).length + 2 ≤ (beyond - first) ^ 2 + 3 * (beyond - first) := by
  intro depth
  induction depth with
  | zero => intro level cells first beyond cells' es _ _ h; cases h
  | succ depth ih =>
    intro level cells first beyond cells' es hlt hb h
    obtain ⟨pivot, ys, k, mid, left, right, hread, hrun, hleft, hright, rfl⟩ :=
      quickSortTrace_cons (by omega) h
    obtain ⟨hk, hlen⟩ := partition_sizes hirr hlt hb hread hrun
    have hmid := quickSortTrace_length (by omega) (by omega) hleft
    rw [comparisons_level hb]
    rcases Nat.eq_zero_or_pos k with hzero | hpos
    · -- nothing is smaller: the left part is empty, `*first` is skipped
      subst hzero
      rw [Nat.max_eq_left (by omega)] at hright
      rw [(quickSortTrace_nil hleft).2]
      have hsize : beyond - first = beyond - (first + 1) + 1 := by omega
      rw [hsize]
      apply skip_bound
      rcases Nat.lt_or_ge (first + 1) beyond with hmore | hlast
      · have hr := ih _ _ _ _ _ _ hmore (by omega) hright
        omega
      · have heq : beyond = first + 1 := by omega
        subst heq
        rw [(quickSortTrace_nil hright).2]
        exact Nat.zero_le _
    · -- both parts have a cell, and together all of them
      rw [Nat.max_eq_right (by omega)] at hright
      have hl := ih _ _ _ _ _ _ (by omega) (by omega) hleft
      have hr := ih _ _ _ _ _ _ (by omega) (by omega) hright
      have hsize : beyond - first = k + (beyond - (first + k)) := by omega
      rw [Nat.add_sub_cancel_left] at hl
      rw [hsize]
      exact split_bound hpos (by omega) hl hr

/-! ## An ascending range -/

/-- The first cell of an ascending range is never preceded by a smaller one. -/
theorem none_below_first (hless : StrictWeak less) {pivot : α} {xs : List α}
    (hs : Sorted less (pivot :: xs)) : ∀ x ∈ pivot :: xs, less x pivot = false := by
  intro x hx
  rcases List.mem_cons.mp hx with rfl | hx
  · exact hless.irreflexive x
  · exact (List.pairwise_cons.mp hs).1 x hx

/-- **Ascending input**: every level finds nothing smaller than its first
cell, leaves the cells alone, and goes on behind that cell. -/
theorem comparisons_ascending (hput : part.KeepsPut) (hless : StrictWeak less) :
    ∀ (depth level : Nat) (cells : List α) (first beyond : Nat) (cells' : List α)
      (es : List (Event α)), first ≤ beyond → beyond ≤ cells.length →
      Sorted less (slice cells first beyond) →
      quickSortTrace part.toStdPartition part.applied less depth level cells first beyond
        = some (cells', es) →
      2 * (comparisons es).length = (beyond - first) * (beyond - first + 1) := by
  intro depth
  induction depth with
  | zero => intro level cells first beyond cells' es _ _ _ h; cases h
  | succ depth ih =>
    intro level cells first beyond cells' es hfb hb hs h
    rcases Nat.lt_or_ge first beyond with hlt | hge
    · obtain ⟨pivot, ys, k, mid, left, right, hread, hrun, hleft, hright, rfl⟩ :=
        quickSortTrace_cons (by omega) h
      have hslice := slice_eq_cons hlt hread
      have hnone := none_below_first hless (hslice ▸ hs)
      rw [← hslice] at hnone
      have hkept := hput _ _ hnone
      have hzero := part.boundary_zero_of_none hnone
      rw [hrun] at hkept hzero
      simp only at hkept hzero
      subst hkept hzero
      rw [splice_self cells hfb hb] at hleft
      rw [Nat.max_eq_left (by omega)] at hright
      obtain ⟨rfl, rfl⟩ := quickSortTrace_nil hleft
      rw [hslice] at hs
      have hr := ih _ _ _ _ _ _ hlt hb (List.pairwise_cons.mp hs).2 hright
      obtain ⟨m, hm⟩ : ∃ m, m = beyond - (first + 1) := ⟨_, rfl⟩
      have hsize : beyond - first = m + 1 := by omega
      rw [← hm] at hr
      rw [comparisons_level hb, comparisons, List.length_nil, hsize]
      have hproduct : (m + 1) * (m + 1 + 1) = m * (m + 1) + 2 * (m + 1) := by ring
      omega
    · have heq : beyond = first := by omega
      subst heq
      rw [(quickSortTrace_nil h).2, Nat.sub_self]
      rfl

/-! ## The count -/

/-- **How many comparisons, and what the counter says.** For every irreflexive
comparator and every partition that applies its predicate once to each element,
`quick_sort` of `n ≥ 1` cells makes at most `(n^2 + 3n - 2) / 2` comparisons.
It makes exactly `n (n + 1) / 2` of an ascending range, for a strict weak order
and a partition that moves nothing when no element satisfies the predicate. A
counter at 0 has counted all of them when there are at most 92680 cells. -/
theorem quickSort_comparisons (part : OncePartition α) (hirr : Irreflexive less)
    (cells : List α) {first beyond : Nat} (hlt : first < beyond) (hb : beyond ≤ cells.length) :
    ∃ cells' es, (∀ depth, beyond - first < depth →
        quickSortTrace part.toStdPartition part.applied less depth 1 cells first beyond
          = some (cells', es) ∧
        quickSort part.toStdPartition less depth cells first beyond = some cells') ∧
      (comparisons es).length ≤ ((beyond - first) ^ 2 + 3 * (beyond - first) - 2) / 2 ∧
      (part.KeepsPut → StrictWeak less → Sorted less (slice cells first beyond) →
        (comparisons es).length = (beyond - first) * (beyond - first + 1) / 2) ∧
      (beyond - first ≤ 92680 →
        ∃ c, CountLess.callAll less (some 0) (comparisons es) = some (some c) ∧
          c.toNat = (comparisons es).length) := by
  obtain ⟨cells', es, hends⟩ := quickSortTrace_total part.toStdPartition part.applied hirr 1
    cells (Nat.le_of_lt hlt) hb
  obtain ⟨hone, -⟩ := hends _ (Nat.lt_succ_self _)
  have hbound := comparisons_bound hirr _ _ _ _ _ _ _ hlt hb hone
  refine ⟨cells', es, hends, by omega, ?_, ?_⟩
  · intro hput hless hs
    have hexact := comparisons_ascending hput hless _ _ _ _ _ _ _ (Nat.le_of_lt hlt) hb hs hone
    omega
  · intro hn
    apply CountLess.callAll_exact
    -- the margin: `92680 * 92683 / 2 - 1` is below `2^32`
    have hsquare : (beyond - first) ^ 2 ≤ 92680 ^ 2 := Nat.pow_le_pow_left hn 2
    omega

/-- The theorem on an ascending vector with equal elements: six comparisons,
and the counter at six. -/
theorem quickSort_comparisons_one_two_two :
    ∃ cells' es, (∀ depth, 3 - 0 < depth →
        quickSortTrace stablePartition leftToRight.applied (lessOf (α := Int)) depth 1
          [1, 2, 2] 0 3 = some (cells', es) ∧
        quickSort stablePartition (lessOf (α := Int)) depth [1, 2, 2] 0 3 = some cells') ∧
      (comparisons es).length = 6 ∧
      CountLess.callAll (lessOf (α := Int)) (some 0) (comparisons es) = some (some 6) := by
  obtain ⟨cells', es, htrace, -, hexact, hcount⟩ :=
    @quickSort_comparisons Int lessOf leftToRight lessOf_strictWeak.irreflexive [1, 2, 2] 0 3
      (by decide) (by decide)
  have hsix : (comparisons es).length = 6 :=
    hexact stablePartition_keepsPut lessOf_strictWeak (by
      unfold Sorted
      decide)
  obtain ⟨c, hc, hcsix⟩ := hcount (by decide)
  have heq : c = 6 := UInt32.toNat_inj.mp (by rw [hcsix, hsix]; rfl)
  exact ⟨cells', es, htrace, hsix, by rw [hc, heq]⟩

end Satf.Sort
