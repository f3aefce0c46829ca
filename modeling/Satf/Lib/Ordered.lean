import Mathlib.Data.List.Sort
import Mathlib.Order.Defs.Unbundled

/-!
# Sequences ordered by a comparator

A comparator is a Boolean function `less`, as a C++ `Compare` object is one.
`Sorted less xs` says that no later element of `xs` is `less` than an earlier
one, which is what a sorting function promises when elements may be
equivalent without being equal. The two facts every sorting argument needs
are here: how sorted blocks concatenate (`sorted_append`), and that over a
linear order a multiset has one sorted arrangement (`sorted_perm_unique`).
-/

namespace Satf.Lib

variable {α : Type}

/-- `less` is a strict weak order, in Mathlib's sense. -/
abbrev StrictWeak (less : α → α → Bool) : Prop :=
  IsStrictWeakOrder α (fun a b => less a b = true)

/-- No later element is `less` than an earlier one. -/
def Sorted (less : α → α → Bool) (xs : List α) : Prop :=
  xs.Pairwise (fun a b => less b a = false)

/-- `less` never holds of an element and itself. -/
def Irreflexive (less : α → α → Bool) : Prop :=
  ∀ a, less a a = false

theorem StrictWeak.irreflexive {less : α → α → Bool} (hless : StrictWeak less) :
    Irreflexive less := by
  intro a
  exact Bool.eq_false_iff.mpr (hless.irrefl a)

/-- Two blocks make a sorted whole when each is sorted and nothing in the
second is `less` than something in the first. -/
theorem sorted_append {less : α → α → Bool} {xs ys : List α}
    (hx : Sorted less xs) (hy : Sorted less ys)
    (hxy : ∀ x ∈ xs, ∀ y ∈ ys, less y x = false) : Sorted less (xs ++ ys) :=
  List.pairwise_append.mpr ⟨hx, hy, hxy⟩

/-- A pivot separates: what is `less` than it comes before what is not. -/
theorem StrictWeak.not_less_of_pivot {less : α → α → Bool} (hless : StrictWeak less)
    {x y pivot : α} (hx : less x pivot = true) (hy : less y pivot = false) :
    less y x = false := by
  rw [Bool.eq_false_iff] at hy ⊢
  intro hyx
  exact hy (hless.trans y x pivot hyx hx)

/-! ## Comparators of linear orders -/

section Linear

variable [LinearOrder α]

/-- The comparator `<` of a linear order. -/
def lessOf (a b : α) : Bool := decide (a < b)

@[simp] theorem lessOf_eq_true {a b : α} : lessOf a b = true ↔ a < b := by
  simp [lessOf]

@[simp] theorem lessOf_eq_false {a b : α} : lessOf a b = false ↔ b ≤ a := by
  simp [lessOf]

/-- `<` on a linear order is a strict weak order. -/
theorem lessOf_strictWeak : StrictWeak (lessOf (α := α)) where
  irrefl a h := lt_irrefl a (lessOf_eq_true.mp h)
  trans a b c hab hbc :=
    lessOf_eq_true.mpr (lt_trans (lessOf_eq_true.mp hab) (lessOf_eq_true.mp hbc))
  incomp_trans a b c hab hbc := by
    simp only [lessOf_eq_true, not_lt] at hab hbc ⊢
    exact ⟨le_trans hbc.1 hab.1, le_trans hab.2 hbc.2⟩

/-- Sorted by `<` is ascending. -/
theorem sorted_lessOf_iff {xs : List α} :
    Sorted lessOf xs ↔ xs.Pairwise (· ≤ ·) := by
  unfold Sorted
  simp only [lessOf_eq_false]

/-- A multiset has one ascending arrangement. -/
theorem sorted_perm_unique {xs ys : List α} (hx : Sorted lessOf xs) (hy : Sorted lessOf ys)
    (hp : xs.Perm ys) : xs = ys :=
  List.Perm.eq_of_pairwise (fun _ _ _ _ hab hba => le_antisymm hab hba)
    (sorted_lessOf_iff.mp hx) (sorted_lessOf_iff.mp hy) hp

/-- The least element leads an ascending sequence. -/
theorem sorted_head_le {x : α} {xs : List α} (hs : Sorted lessOf (x :: xs)) :
    ∀ y ∈ x :: xs, x ≤ y := by
  intro y hy
  rcases List.mem_cons.mp hy with rfl | htail
  · exact le_refl y
  · exact (List.pairwise_cons.mp (sorted_lessOf_iff.mp hs)).1 y htail

/-! ## Ascending and descending arrangements -/

/-- The ascending arrangement. -/
def ascending (xs : List α) : List α := xs.mergeSort (fun a b => decide (a ≤ b))

/-- The descending arrangement. -/
def descending (xs : List α) : List α := xs.mergeSort (fun a b => decide (b ≤ a))

theorem ascending_perm (xs : List α) : (ascending xs).Perm xs := List.mergeSort_perm xs _

theorem descending_perm (xs : List α) : (descending xs).Perm xs := List.mergeSort_perm xs _

theorem ascending_sorted (xs : List α) : Sorted lessOf (ascending xs) := by
  have h := @List.pairwise_mergeSort α (fun a b => decide (a ≤ b))
    (fun a b c hab hbc => by
      simp only [decide_eq_true_eq] at hab hbc ⊢
      exact le_trans hab hbc)
    (fun a b => by simp [le_total]) xs
  change (ascending xs).Pairwise _ at h
  rw [sorted_lessOf_iff]
  simpa using h

/-- The greatest element leads the descending arrangement. -/
theorem descending_head_ge {xs : List α} {x : α} {rest : List α}
    (hx : descending xs = x :: rest) : ∀ y ∈ xs, y ≤ x := by
  have h := @List.pairwise_mergeSort α (fun a b => decide (b ≤ a))
    (fun a b c hab hbc => by
      simp only [decide_eq_true_eq] at hab hbc ⊢
      exact le_trans hbc hab)
    (fun a b => by simp [le_total]) xs
  change (descending xs).Pairwise _ at h
  rw [hx] at h
  intro y hy
  rcases List.mem_cons.mp (hx ▸ (descending_perm xs).mem_iff.mpr hy) with rfl | htail
  · exact le_refl y
  · simpa using (List.pairwise_cons.mp h).1 y htail

/-- The last of the ascending arrangement is the greatest element. -/
theorem ascending_getLast?_eq_some {xs : List α} {x : α} :
    (ascending xs).getLast? = some x ↔ x ∈ xs ∧ ∀ y ∈ xs, y ≤ x := by
  have hmem : ∀ y, y ∈ ascending xs ↔ y ∈ xs := fun y => (ascending_perm xs).mem_iff
  have hlast : ∀ z, (ascending xs).getLast? = some z → z ∈ xs ∧ ∀ y ∈ xs, y ≤ z := by
    intro z hz
    refine ⟨(hmem z).mp (List.mem_of_getLast? hz), ?_⟩
    intro y hy
    obtain ⟨front, hfront⟩ := List.getLast?_eq_some_iff.mp hz
    have hsorted := sorted_lessOf_iff.mp (ascending_sorted xs)
    rw [hfront] at hsorted
    have hy' := (hmem y).mpr hy
    rw [hfront, List.mem_append, List.mem_singleton] at hy'
    rcases hy' with hy' | rfl
    · exact (List.pairwise_append.mp hsorted).2.2 y hy' z (List.mem_singleton_self z)
    · exact le_refl y
  constructor
  · exact hlast x
  · intro hgreatest
    obtain ⟨hx, hge⟩ := hgreatest
    cases hz : (ascending xs).getLast? with
    | none =>
      rw [List.getLast?_eq_none_iff] at hz
      exact absurd ((hmem x).mpr hx) (by rw [hz]; exact List.not_mem_nil)
    | some z =>
      obtain ⟨hzmem, hzge⟩ := hlast z hz
      rw [le_antisymm (hge z hzmem) (hzge x hx)]

end Linear

end Satf.Lib
