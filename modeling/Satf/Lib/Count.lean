import Mathlib.Algebra.BigOperators.Group.Finset.Piecewise
import Mathlib.Algebra.Order.BigOperators.Group.Finset
import Mathlib.Data.Fintype.Basic

/-!
# Counting the threads in a phase

How many indices of a finite family satisfy a test, and how that number
changes when one member of the family does; and lists whose entries belong to
an index, taken apart into one list for each (`valuesAt`). For lists of threads,
what becomes of such numbers and of what holds of every entry when one entry
changes.
-/

namespace Satf.Lib

variable {ι α : Type} [Fintype ι]

/-- The number of indices whose value passes the test. -/
def countWhere (test : α → Bool) (f : ι → α) : Nat := ∑ i, (test (f i)).toNat

/-- One member changes: what it contributed goes, what it contributes now
comes. -/
theorem countWhere_update [DecidableEq ι] (test : α → Bool) (f : ι → α) (i : ι) (x : α) :
    countWhere test (Function.update f i x) + (test (f i)).toNat
      = countWhere test f + (test x).toNat := by
  have hcomp : (fun j => (test (Function.update f i x j)).toNat)
      = Function.update (fun j => (test (f j)).toNat) i (test x).toNat := by
    funext j
    by_cases hj : j = i
    · rw [hj, Function.update_self, Function.update_self]
    · rw [Function.update_of_ne hj, Function.update_of_ne hj]
  unfold countWhere
  rw [hcomp, Finset.sum_update_of_mem (Finset.mem_univ i), Finset.sdiff_singleton_eq_erase,
    ← Finset.add_sum_erase Finset.univ (fun j => (test (f j)).toNat) (Finset.mem_univ i)]
  omega

theorem countWhere_congr {test : α → Bool} {f g : ι → α} (h : ∀ i, test (f i) = test (g i)) :
    countWhere test f = countWhere test g :=
  Finset.sum_congr rfl (fun i _ => by rw [h i])

theorem countWhere_eq_zero {test : α → Bool} {f : ι → α} :
    countWhere test f = 0 ↔ ∀ i, test (f i) = false := by
  unfold countWhere
  rw [Finset.sum_eq_zero_iff]
  simp

theorem countWhere_pos {test : α → Bool} {f : ι → α} {i : ι} (h : test (f i) = true) :
    0 < countWhere test f := by
  rw [Nat.pos_iff_ne_zero, Ne, countWhere_eq_zero]
  intro hall
  rw [hall i] at h
  cases h

/-! ## Weights -/

/-- What the members weigh together. -/
def weightOf (rank : α → Nat) (f : ι → α) : Nat := ∑ i, rank (f i)

/-- One member changes, and the total by as much. -/
theorem weightOf_update [DecidableEq ι] (rank : α → Nat) (f : ι → α) (i : ι) (x : α) :
    weightOf rank (Function.update f i x) + rank (f i) = weightOf rank f + rank x := by
  have hcomp : (fun j => rank (Function.update f i x j))
      = Function.update (fun j => rank (f j)) i (rank x) := by
    funext j
    by_cases hj : j = i
    · rw [hj, Function.update_self, Function.update_self]
    · rw [Function.update_of_ne hj, Function.update_of_ne hj]
  unfold weightOf
  rw [hcomp, Finset.sum_update_of_mem (Finset.mem_univ i), Finset.sdiff_singleton_eq_erase,
    ← Finset.add_sum_erase Finset.univ (fun j => rank (f j)) (Finset.mem_univ i)]
  omega

/-- Every member gains at most `c`. -/
theorem weightOf_le {rank : α → Nat} {f g : ι → α} {c : Nat}
    (h : ∀ i, rank (g i) ≤ rank (f i) + c) :
    weightOf rank g ≤ weightOf rank f + Fintype.card ι * c := by
  unfold weightOf
  calc ∑ i, rank (g i) ≤ ∑ i, (rank (f i) + c) := Finset.sum_le_sum fun i _ => h i
    _ = ∑ i, rank (f i) + Fintype.card ι * c := by
      rw [Finset.sum_add_distrib, Finset.sum_const, Finset.card_univ]
      rfl

/-! ## Entries by index -/

/-- The values at index `i`, in order. -/
def valuesAt [DecidableEq ι] (i : ι) (l : List (ι × α)) : List α :=
  (l.filter fun p => p.1 = i).map Prod.snd

omit [Fintype ι] in
theorem valuesAt_append [DecidableEq ι] (i : ι) (l l' : List (ι × α)) :
    valuesAt i (l ++ l') = valuesAt i l ++ valuesAt i l' := by
  rw [valuesAt, List.filter_append, List.map_append]
  rfl

omit [Fintype ι] in
theorem valuesAt_map_mk [DecidableEq ι] (i j : ι) (xs : List α) :
    valuesAt i (xs.map (Prod.mk j)) = if j = i then xs else [] := by
  by_cases hj : j = i
  · simp [valuesAt, List.filter_map, hj, Function.comp_def]
  · simp [valuesAt, List.filter_map, hj, Function.comp_def]

omit [Fintype ι] in
/-- All values together are those of each index that occurs. -/
theorem coe_values_eq_sum [DecidableEq ι] {is : Finset ι} {l : List (ι × α)}
    (h : ∀ p ∈ l, p.1 ∈ is) :
    (↑(l.map Prod.snd) : Multiset α) = ∑ i ∈ is, ↑(valuesAt i l) := by
  induction l with
  | nil => simp [valuesAt]
  | cons p l ih =>
    have hcons : ∀ i, (↑(valuesAt i (p :: l)) : Multiset α)
        = (if i = p.1 then {p.2} else 0) + ↑(valuesAt i l) := by
      intro i
      by_cases hi : i = p.1
      · rw [if_pos hi, valuesAt, List.filter_cons_of_pos (by simpa using hi.symm), List.map_cons,
          ← Multiset.cons_coe, ← Multiset.singleton_add]
        rfl
      · rw [if_neg hi, valuesAt, List.filter_cons_of_neg (by simpa using Ne.symm hi), zero_add]
        rfl
    rw [List.map_cons, ← Multiset.cons_coe, ← Multiset.singleton_add,
      ih fun q hq => h q (List.mem_cons_of_mem p hq), Finset.sum_congr rfl fun i _ => hcons i,
      Finset.sum_add_distrib, Finset.sum_ite_eq', if_pos (h p List.mem_cons_self)]

omit [Fintype ι] in
/-- Lists that agree at every index hold the same values. -/
theorem perm_of_valuesAt [DecidableEq ι] {l l' : List (ι × α)}
    (h : ∀ i, valuesAt i l = valuesAt i l') : (l.map Prod.snd).Perm (l'.map Prod.snd) := by
  have hl : ∀ p ∈ l, p.1 ∈ ((l ++ l').map Prod.fst).toFinset := fun p hp =>
    List.mem_toFinset.mpr (List.mem_map_of_mem (List.mem_append_left l' hp))
  have hl' : ∀ p ∈ l', p.1 ∈ ((l ++ l').map Prod.fst).toFinset := fun p hp =>
    List.mem_toFinset.mpr (List.mem_map_of_mem (List.mem_append_right l hp))
  rw [← Multiset.coe_eq_coe, coe_values_eq_sum hl, coe_values_eq_sum hl']
  exact Finset.sum_congr rfl fun i _ => by rw [h i]

/-! ## Lists of threads -/

theorem countP_pos_of_getElem? {test : α → Bool} {l : List α} {i : Nat} {x : α}
    (h : l[i]? = some x) (hx : test x = true) : 0 < l.countP test :=
  List.countP_pos_iff.mpr ⟨x, List.mem_of_getElem? h, hx⟩

/-- One entry changes: what it contributed goes, what it contributes now
comes. -/
theorem countP_set_add (test : α → Bool) {l : List α} {i : Nat} {x : α} (y : α)
    (h : l[i]? = some x) :
    (l.set i y).countP test + (test x).toNat = l.countP test + (test y).toNat := by
  obtain ⟨hi, hx⟩ := List.getElem?_eq_some_iff.mp h
  have hpos : test x = true → 0 < l.countP test := countP_pos_of_getElem? h
  rw [List.countP_set hi, hx]
  cases hx : test x with
  | false => cases test y <;> rfl
  | true =>
    have := hpos hx
    cases test y with
    | false => simp; omega
    | true => simp; omega

/-- What holds of every entry, after one of them has changed. -/
theorem forall_set {P : Nat → α → Prop} {l : List α} {i : Nat} {y : α}
    (h : ∀ j x, l[j]? = some x → P j x) (hi : P i y) :
    ∀ j x, (l.set i y)[j]? = some x → P j x := by
  intro j x hj
  rw [List.getElem?_set] at hj
  split at hj
  next heq =>
    subst heq
    split at hj
    next => cases hj; exact hi
    next => cases hj
  next => exact h j x hj

/-- What holds of every entry after one of them has changed, held before. -/
theorem forall_of_set {P : α → Prop} {l : List α} {i : Nat} {x y : α} (hi : l[i]? = some x)
    (hx : P x) (h : ∀ (j : Nat) z, (l.set i y)[j]? = some z → P z) :
    ∀ (j : Nat) z, l[j]? = some z → P z := by
  intro j z hj
  by_cases hij : i = j
  · subst hij
    cases hi.symm.trans hj
    exact hx
  · exact h j z (by rw [List.getElem?_set_ne hij]; exact hj)

/-- What holds of every entry, after one more has come. -/
theorem forall_concat {P : Nat → α → Prop} {l : List α} {x : α}
    (h : ∀ j y, l[j]? = some y → P j y) (hx : P l.length x) :
    ∀ j y, (l ++ [x])[j]? = some y → P j y := by
  intro j y hj
  rw [List.getElem?_append] at hj
  split at hj
  next => exact h j y hj
  next hge =>
    rw [List.getElem?_singleton] at hj
    split at hj
    next hzero =>
      cases hj
      have heq : j = l.length := by omega
      rw [heq]
      exact hx
    next => cases hj

/-- `n` entries, of which the first `j` have changed from `x` to `y`. -/
def swept (x y : α) (n j : Nat) : List α := List.replicate j y ++ List.replicate (n - j) x

theorem swept_zero (x y : α) (n : Nat) : swept x y n 0 = List.replicate n x := rfl

theorem swept_all (x y : α) (n : Nat) : swept x y n n = List.replicate n y := by
  rw [swept, Nat.sub_self, List.replicate_zero, List.append_nil]

theorem swept_getElem? (x y : α) {n j : Nat} (h : j < n) : (swept x y n j)[j]? = some x := by
  rw [swept, List.getElem?_append_right (by simp), List.length_replicate, Nat.sub_self,
    List.getElem?_replicate, if_pos (Nat.sub_pos_of_lt h)]

theorem swept_set (x y : α) {n j : Nat} (h : j < n) :
    (swept x y n j).set j y = swept x y n (j + 1) := by
  have hrest : n - j = n - (j + 1) + 1 := by omega
  unfold swept
  rw [List.set_append_right _ _ (by simp), List.length_replicate, Nat.sub_self, hrest,
    List.replicate_succ, List.set_cons_zero, List.replicate_succ', List.append_assoc,
    List.singleton_append]

end Satf.Lib
