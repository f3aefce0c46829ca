import Mathlib.Data.List.Basic

/-!
# Cells, ranges and write-back

A vector seen through random-access iterators is a list of cells, an iterator
is a position in it, and a range `[first, beyond)` is the block of cells
between two positions. Two operations are enough for an in-place algorithm:
`slice` reads the contents of a range, `splice` overwrites the cells from a
position on.

Proofs never compute with `take` and `drop`: they split the cells into
`pre ++ mid ++ post` once (`slice_split`) and then use the two normal forms
`slice_append` and `splice_append`.
-/

namespace Satf.Lib

variable {α : Type}

/-- The contents of the cells `[first, beyond)`. -/
def slice (cells : List α) (first beyond : Nat) : List α :=
  (cells.drop first).take (beyond - first)

/-- The cells after `ys` has been written from position `pos` on. -/
def splice (cells : List α) (pos : Nat) (ys : List α) : List α :=
  cells.take pos ++ ys ++ cells.drop (pos + ys.length)

/-! ## The two normal forms -/

/-- Reading the middle block of a split gives the middle block. -/
theorem slice_append (pre mid post : List α) :
    slice (pre ++ mid ++ post) pre.length (pre.length + mid.length) = mid := by
  unfold slice
  rw [List.append_assoc, List.drop_left, Nat.add_sub_cancel_left, List.take_left]

/-- Overwriting the middle block of a split keeps both sides. -/
theorem splice_append (pre mid post ys : List α) (hlen : ys.length = mid.length) :
    splice (pre ++ mid ++ post) pre.length ys = pre ++ ys ++ post := by
  unfold splice
  rw [hlen, List.append_assoc pre mid post, List.take_left, ← List.drop_drop,
    List.drop_left, List.drop_left]

/-- A range splits the cells into what lies before it, its contents and what
lies after it. -/
theorem slice_split (cells : List α) {first beyond : Nat} (hfb : first ≤ beyond) :
    cells = cells.take first ++ slice cells first beyond ++ cells.drop beyond := by
  have hb : first + (beyond - first) = beyond := by omega
  unfold slice
  rw [List.append_assoc, ← hb, ← List.drop_drop, Nat.add_sub_cancel_left,
    List.take_append_drop, List.take_append_drop]

theorem slice_length (cells : List α) {first beyond : Nat} (hb : beyond ≤ cells.length) :
    (slice cells first beyond).length = beyond - first := by
  unfold slice
  rw [List.length_take, List.length_drop]
  omega

/-- A range that is not empty starts with its first cell. -/
theorem slice_eq_cons {cells : List α} {first beyond : Nat} {x : α} (hlt : first < beyond)
    (hx : cells[first]? = some x) :
    slice cells first beyond = x :: slice cells (first + 1) beyond := by
  obtain ⟨hfirst, rfl⟩ := List.getElem?_eq_some_iff.mp hx
  obtain ⟨m, hm⟩ : ∃ m, beyond - first = m + 1 := ⟨beyond - first - 1, by omega⟩
  have hm' : beyond - (first + 1) = m := by omega
  unfold slice
  rw [List.drop_eq_getElem_cons hfirst, hm, hm', List.take_succ_cons]

/-- The whole list is the slice over all its cells. -/
@[simp] theorem slice_full (cells : List α) : slice cells 0 cells.length = cells := by
  simp [slice]

/-- Writing back what a range holds changes nothing. -/
theorem splice_self (cells : List α) {first beyond : Nat} (hfb : first ≤ beyond)
    (hb : beyond ≤ cells.length) : splice cells first (slice cells first beyond) = cells := by
  unfold splice
  rw [slice_length cells hb, Nat.add_sub_cancel' hfb]
  exact (slice_split cells hfb).symm

/-! ## Reading after writing -/

/-- Writing inside the cells keeps their number. -/
theorem splice_length (cells : List α) {pos : Nat} (ys : List α)
    (hroom : pos + ys.length ≤ cells.length) :
    (splice cells pos ys).length = cells.length := by
  unfold splice
  rw [List.length_append, List.length_append, List.length_take, List.length_drop]
  omega

/-- What was written is read back. -/
theorem slice_splice (cells : List α) {pos : Nat} (ys : List α)
    (hroom : pos + ys.length ≤ cells.length) :
    slice (splice cells pos ys) pos (pos + ys.length) = ys := by
  have hpos : (cells.take pos).length = pos := by
    rw [List.length_take]
    omega
  have h := slice_append (cells.take pos) ys (cells.drop (pos + ys.length))
  rw [hpos] at h
  exact h

/-- A range is read back as it was written. -/
theorem slice_splice_range (cells : List α) {first beyond : Nat} {ys : List α}
    (hfb : first ≤ beyond) (hb : beyond ≤ cells.length) (hlen : ys.length = beyond - first) :
    slice (splice cells first ys) first beyond = ys := by
  have h := @slice_splice α cells first ys (by omega)
  rw [hlen, Nat.add_sub_cancel' hfb] at h
  exact h

/-- The frame of a write: a cell outside the written block keeps its value. -/
theorem splice_getElem?_frame (cells : List α) {pos : Nat} (ys : List α) {i : Nat}
    (hroom : pos + ys.length ≤ cells.length) (hi : i < pos ∨ pos + ys.length ≤ i) :
    (splice cells pos ys)[i]? = cells[i]? := by
  have hpos : (cells.take pos).length = pos := by
    rw [List.length_take]
    omega
  unfold splice
  rw [List.append_assoc]
  rcases hi with hlt | hge
  · rw [List.getElem?_append_left (by omega), List.getElem?_take_of_lt hlt]
  · rw [List.getElem?_append_right (by omega), List.getElem?_append_right (by omega),
      List.getElem?_drop, hpos]
    congr 1
    omega

/-- A range that the written block does not meet keeps its contents. -/
theorem slice_splice_disjoint (cells : List α) {pos first beyond : Nat} (ys : List α)
    (hroom : pos + ys.length ≤ cells.length)
    (hd : beyond ≤ pos ∨ pos + ys.length ≤ first) :
    slice (splice cells pos ys) first beyond = slice cells first beyond := by
  apply List.ext_getElem?
  intro i
  unfold slice
  by_cases hi : i < beyond - first
  · rw [List.getElem?_take_of_lt hi, List.getElem?_take_of_lt hi, List.getElem?_drop,
      List.getElem?_drop]
    exact splice_getElem?_frame cells ys hroom (by omega)
  · rw [List.getElem?_take_eq_none (by omega), List.getElem?_take_eq_none (by omega)]

end Satf.Lib
