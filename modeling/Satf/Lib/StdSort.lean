import Satf.Lib.Ordered

/-!
# `std::sort`, `std::stable_sort` and the heap algorithms, by their contracts

Each of these library functions is known by what the standard documents of
it for a strict weak order, and nothing else: `StdSort` is any function that
permutes a sequence into sorted order, `StdHeap` any pair of a function that
arranges a sequence as a heap and one that sorts a heap. The contract is part
of the structure, so a value of it is a conforming implementation.

`mergeStdSort` and `mergeStdHeap` are conforming implementations by merge
sort: a sequence in descending order is a heap.
-/

namespace Satf.Lib

variable {α : Type}

/-- No cell is greater than its parent: the documented heap condition, with
the root at position 0 and the parent of `i` at `(i - 1) / 2`. -/
def IsHeap (less : α → α → Bool) (xs : List α) : Prop :=
  ∀ i parent child, 0 < i → xs[(i - 1) / 2]? = some parent → xs[i]? = some child →
    less parent child = false

/-- A sorting function of the library. -/
structure StdSort (α : Type) where
  run : (α → α → Bool) → List α → List α
  perm : ∀ {less}, StrictWeak less → ∀ xs, (run less xs).Perm xs
  sorted : ∀ {less}, StrictWeak less → ∀ xs, Sorted less (run less xs)

/-- `std::make_heap` and `std::sort_heap`. -/
structure StdHeap (α : Type) where
  makeHeap : (α → α → Bool) → List α → List α
  sortHeap : (α → α → Bool) → List α → List α
  makeHeap_perm : ∀ {less}, StrictWeak less → ∀ xs, (makeHeap less xs).Perm xs
  makeHeap_isHeap : ∀ {less}, StrictWeak less → ∀ xs, IsHeap less (makeHeap less xs)
  sortHeap_perm : ∀ {less}, StrictWeak less → ∀ xs, IsHeap less xs →
    (sortHeap less xs).Perm xs
  sortHeap_sorted : ∀ {less}, StrictWeak less → ∀ xs, IsHeap less xs →
    Sorted less (sortHeap less xs)

/-! ## Conforming implementations -/

/-- Merge sort by "not greater" sorts, for every strict weak order. -/
theorem mergeSort_sorted {less : α → α → Bool} (hless : StrictWeak less) (xs : List α) :
    Sorted less (xs.mergeSort (fun a b => !less b a)) := by
  have h := @List.pairwise_mergeSort α (fun a b => !less b a)
    (fun a b c hab hbc => by
      simp only [Bool.not_eq_true', Bool.eq_false_iff] at hab hbc ⊢
      intro hca
      by_cases hcb : less b c = true
      · exact hab (hless.trans b c a hcb hca)
      · by_cases hba : less a b = true
        · exact hbc (hless.trans c a b hca hba)
        · exact (hless.incomp_trans a b c ⟨hba, hab⟩ ⟨hcb, hbc⟩).2 hca)
    (fun a b => by
      cases hba : less b a with
      | false => rfl
      | true =>
        have hab : less a b = false := by
          rw [Bool.eq_false_iff]
          intro hab
          exact hless.irrefl a (hless.trans a b a hab hba)
        rw [hab]
        rfl) xs
  simpa [Sorted] using h

theorem StrictWeak.swap {less : α → α → Bool} (hless : StrictWeak less) :
    StrictWeak (fun a b => less b a) where
  irrefl a := hless.irrefl a
  trans a b c hab hbc := hless.trans c b a hbc hab
  incomp_trans a b c hab hbc := by
    obtain ⟨h1, h2⟩ := hless.incomp_trans a b c hab.symm hbc.symm
    exact ⟨h2, h1⟩

/-- A sequence in descending order is a heap. -/
theorem isHeap_of_descending {less : α → α → Bool} {xs : List α}
    (h : Sorted (fun a b => less b a) xs) : IsHeap less xs := by
  intro i parent child hi hp hc
  obtain ⟨hpl, rfl⟩ := List.getElem?_eq_some_iff.mp hp
  obtain ⟨hcl, rfl⟩ := List.getElem?_eq_some_iff.mp hc
  exact List.pairwise_iff_getElem.mp h _ _ hpl hcl (by omega)

/-- Sorting by merge sort. -/
def mergeStdSort : StdSort α where
  run less xs := xs.mergeSort (fun a b => !less b a)
  perm _ xs := List.mergeSort_perm xs _
  sorted hless xs := mergeSort_sorted hless xs

/-- A heap by merge sort into descending order. -/
def mergeStdHeap : StdHeap α where
  makeHeap less xs := xs.mergeSort (fun a b => !less a b)
  sortHeap less xs := xs.mergeSort (fun a b => !less b a)
  makeHeap_perm _ xs := List.mergeSort_perm xs _
  makeHeap_isHeap hless xs := isHeap_of_descending (mergeSort_sorted hless.swap xs)
  sortHeap_perm _ xs _ := List.mergeSort_perm xs _
  sortHeap_sorted hless xs _ := mergeSort_sorted hless xs

end Satf.Lib
