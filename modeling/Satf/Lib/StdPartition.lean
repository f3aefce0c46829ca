import Satf.Lib.Ordered

/-!
# `std::partition`, by its contract

`std::partition(first, beyond, pred)` rearranges a range so that the elements
satisfying `pred` come first, and returns the boundary. The standard fixes no
more than that: the order inside each of the two groups is unspecified. A
`StdPartition` is any function with that contract, and carries the proof.

The contract does not say that a range none of whose elements satisfies
`pred` is left alone. The usual two-pointer swap loop does leave it alone;
that is the extra property `KeepsPut`, asked for where it is needed. The
standard also asks for exactly one application of `pred` to each element, in
an order it leaves open: a `OncePartition` says which.

`ofGroups` builds a partition from an arrangement of each group. Two of them
are kept here: `stablePartition`, which keeps the order inside both groups,
and `adversePartition`, which is just as conforming and reverses a range that
has nothing to move.
-/

namespace Satf.Lib

variable {α : Type}

/-- A function meeting the documented contract of `std::partition`: the new
contents of the range, and how many cells lie before the returned boundary. -/
structure StdPartition (α : Type) where
  run : (α → Bool) → List α → List α × Nat
  perm : ∀ p xs, (run p xs).1.Perm xs
  boundary_le : ∀ p xs, (run p xs).2 ≤ xs.length
  before : ∀ p xs, ∀ x ∈ (run p xs).1.take (run p xs).2, p x = true
  after : ∀ p xs, ∀ x ∈ (run p xs).1.drop (run p xs).2, p x = false

namespace StdPartition

/-- Nothing moves when no element satisfies the predicate. -/
def KeepsPut (part : StdPartition α) : Prop :=
  ∀ p xs, (∀ x ∈ xs, p x = false) → (part.run p xs).1 = xs

@[simp] theorem run_length (part : StdPartition α) (p : α → Bool) (xs : List α) :
    (part.run p xs).1.length = xs.length :=
  (part.perm p xs).length_eq

/-- The contract, for a run whose results have names. -/
theorem run_spec (part : StdPartition α) {p : α → Bool} {xs ys : List α} {k : Nat}
    (h : part.run p xs = (ys, k)) :
    ys.Perm xs ∧ k ≤ ys.length ∧ (∀ x ∈ ys.take k, p x = true) ∧
      ∀ x ∈ ys.drop k, p x = false := by
  have hperm := part.perm p xs
  have hle := part.boundary_le p xs
  have hbefore := part.before p xs
  have hafter := part.after p xs
  rw [h] at hperm hle hbefore hafter
  exact ⟨hperm, by rw [hperm.length_eq]; exact hle, hbefore, hafter⟩

/-- An element failing the predicate keeps the boundary off the end. -/
theorem boundary_lt (part : StdPartition α) {p : α → Bool} {xs : List α} {x : α}
    (hx : x ∈ xs) (hp : p x = false) : (part.run p xs).2 < xs.length := by
  refine Nat.lt_of_le_of_ne (part.boundary_le p xs) ?_
  intro hall
  have hmem : x ∈ (part.run p xs).1.take (part.run p xs).2 := by
    rw [List.take_of_length_le (by rw [part.run_length, hall])]
    exact (part.perm p xs).mem_iff.mpr hx
  have htrue := part.before p xs x hmem
  rw [hp] at htrue
  exact Bool.false_ne_true htrue

/-- An element satisfying the predicate keeps the boundary off the start. -/
theorem boundary_pos (part : StdPartition α) {p : α → Bool} {xs : List α} {x : α}
    (hx : x ∈ xs) (hp : p x = true) : 0 < (part.run p xs).2 := by
  apply Nat.pos_of_ne_zero
  intro hzero
  have hmem : x ∈ (part.run p xs).1.drop (part.run p xs).2 := by
    rw [hzero]
    exact (part.perm p xs).mem_iff.mpr hx
  have hfalse := part.after p xs x hmem
  rw [hp] at hfalse
  exact Bool.false_ne_true hfalse.symm

/-- A boundary at the start says that no element satisfies the predicate. -/
theorem none_of_boundary_zero (part : StdPartition α) {p : α → Bool} {xs : List α}
    (hzero : (part.run p xs).2 = 0) : ∀ x ∈ xs, p x = false := by
  intro x hx
  cases hp : p x with
  | false => rfl
  | true => exact absurd (part.boundary_pos hx hp) (by omega)

/-- Where no element satisfies the predicate, the boundary is at the start. -/
theorem boundary_zero_of_none (part : StdPartition α) {p : α → Bool} {xs : List α}
    (hnone : ∀ x ∈ xs, p x = false) : (part.run p xs).2 = 0 := by
  by_contra hpos
  have hle := part.boundary_le p xs
  have hlen : 0 < ((part.run p xs).1.take (part.run p xs).2).length := by
    rw [List.length_take, part.run_length]
    omega
  obtain ⟨x, hx⟩ := List.exists_mem_of_length_pos hlen
  have htrue := part.before p xs x hx
  rw [hnone x ((part.perm p xs).mem_iff.mp (List.mem_of_mem_take hx))] at htrue
  exact Bool.false_ne_true htrue

/-! ## Partitions from an arrangement of the two groups -/

/-- The partition that writes one arrangement of the satisfying elements
followed by one arrangement of the others. -/
def ofGroups (front back : (α → Bool) → List α → List α)
    (hfront : ∀ p xs, (front p xs).Perm (xs.filter p))
    (hback : ∀ p xs, (back p xs).Perm (xs.filter (fun x => !p x))) : StdPartition α where
  run p xs := (front p xs ++ back p xs, (front p xs).length)
  perm p xs := ((hfront p xs).append (hback p xs)).trans (List.filter_append_perm p xs)
  boundary_le p xs := by
    rw [(hfront p xs).length_eq]
    exact List.length_filter_le p xs
  before p xs x hx := by
    rw [List.take_left] at hx
    exact (List.mem_filter.mp ((hfront p xs).mem_iff.mp hx)).2
  after p xs x hx := by
    rw [List.drop_left] at hx
    simpa using (List.mem_filter.mp ((hback p xs).mem_iff.mp hx)).2

end StdPartition

/-- The partition that keeps the order inside both groups. -/
def stablePartition : StdPartition α :=
  .ofGroups (fun p xs => xs.filter p) (fun p xs => xs.filter (fun x => !p x))
    (fun _ _ => List.Perm.refl _) (fun _ _ => List.Perm.refl _)

/-- The two groups where nothing satisfies the predicate. -/
theorem groups_of_none {p : α → Bool} {xs : List α} (hnone : ∀ x ∈ xs, p x = false) :
    xs.filter p = [] ∧ xs.filter (fun x => !p x) = xs := by
  constructor
  · rw [List.filter_eq_nil_iff]
    intro x hx
    simp [hnone x hx]
  · rw [List.filter_eq_self]
    intro x hx
    simp [hnone x hx]

theorem stablePartition_keepsPut : (stablePartition (α := α)).KeepsPut := by
  intro p xs hnone
  obtain ⟨hfront, hback⟩ := groups_of_none hnone
  show xs.filter p ++ xs.filter (fun x => !p x) = xs
  rw [hfront, hback, List.nil_append]

/-- A partition with the sequence of elements it applies its predicate to:
every element of the range exactly once, in some order. -/
structure OncePartition (α : Type) extends StdPartition α where
  applied : (α → Bool) → List α → List α
  once : ∀ p xs, (applied p xs).Perm xs

theorem OncePartition.applied_length (part : OncePartition α) (p : α → Bool) (xs : List α) :
    (part.applied p xs).length = xs.length :=
  (part.once p xs).length_eq

/-- The order-keeping partition, looking at the elements from left to right. -/
def leftToRight : OncePartition α where
  toStdPartition := stablePartition
  applied _ xs := xs
  once _ xs := List.Perm.refl xs

section Adverse

variable [LinearOrder α]

/-- A conforming partition that moves as much as it may: it writes both
groups in ascending order, except that a range with nothing to move is
written in descending order. -/
def adversePartition : StdPartition α :=
  .ofGroups (fun p xs => ascending (xs.filter p))
    (fun p xs =>
      if xs.filter p = [] then descending (xs.filter (fun x => !p x))
      else ascending (xs.filter (fun x => !p x)))
    (fun _ _ => ascending_perm _)
    (fun p xs => by
      by_cases hnone : xs.filter p = []
      · rw [if_pos hnone]
        exact descending_perm _
      · rw [if_neg hnone]
        exact ascending_perm _)

end Adverse

end Satf.Lib
