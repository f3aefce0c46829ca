import Satf.Sort.QuickSort

/-!
# The nested calls and the comparisons of `quick_sort`

`quickSortTrace` is the in-place function again, with a record of what it does
on the way: the comparisons `std::partition` makes through the predicate, and
the two nested calls, each with its own range, that of its caller, and how
deep it is nested. Leaving the record out gives `quickSort` back
(`quickSortTrace_erase`).

To which elements a partition applies its predicate, and in which order, is
left open by its contract; `applied` says it.

> `quickSort_calls_nested`: for every irreflexive comparator, transitive or
> not, the function ends, nested no deeper than the length of the range plus
> one, every nested call is on a range inside that of its caller, and the
> result permutes the range and leaves the other cells alone.
-/

namespace Satf.Sort

open Satf.Lib

variable {α : Type}

/-- A nested call: its level, where the outermost call is 1, the range of the
call that makes it, and its own range. -/
structure NestedCall where
  level : Nat
  callerFirst : Nat
  callerBeyond : Nat
  first : Nat
  beyond : Nat
  deriving DecidableEq, Repr

/-- What happens during a call. -/
inductive Event (α : Type) where
  | less (x pivot : α)
  | call (c : NestedCall)

/-- `quick_sort(first, beyond, less)` called at `level`, with the events inside
the call; `depth` bounds the nested calls. -/
def quickSortTrace (part : StdPartition α) (applied : (α → Bool) → List α → List α)
    (less : α → α → Bool) : Nat → Nat → List α → Nat → Nat → Option (List α × List (Event α))
  | 0, _, _, _, _ => none
  | depth + 1, level, cells, first, beyond =>
    if first ≠ beyond then
      match cells[first]? with
      | none => none
      | some pivot =>
        let pred := fun x => less x pivot
        let (ys, k) := part.run pred (slice cells first beyond)
        let compared := (applied pred (slice cells first beyond)).map (Event.less · pivot)
        let middle := first + k
        let next := max (first + 1) middle
        (quickSortTrace part applied less depth (level + 1) (splice cells first ys) first middle).bind
          fun (cells, left) =>
            (quickSortTrace part applied less depth (level + 1) cells next beyond).map
              fun (cells, right) =>
                (cells, compared ++ .call ⟨level + 1, first, beyond, first, middle⟩ :: left
                  ++ .call ⟨level + 1, first, beyond, next, beyond⟩ :: right)
    else some (cells, [])

variable {part : StdPartition α} {applied : (α → Bool) → List α → List α}
  {less : α → α → Bool}

/-! ## The record is about `quickSort` -/

/-- Without the record, the function is `quickSort`. -/
theorem quickSortTrace_erase (part : StdPartition α)
    (applied : (α → Bool) → List α → List α) (less : α → α → Bool) :
    ∀ (depth level : Nat) (cells : List α) (first beyond : Nat),
      (quickSortTrace part applied less depth level cells first beyond).map Prod.fst
        = quickSort part less depth cells first beyond := by
  intro depth
  induction depth with
  | zero => intro level cells first beyond; rfl
  | succ depth ih =>
    intro level cells first beyond
    rw [quickSortTrace, quickSort]
    by_cases hne : first ≠ beyond
    · rw [if_pos hne, if_pos hne]
      cases cells[first]? with
      | none => rfl
      | some pivot =>
        cases hrun : part.run (fun x => less x pivot) (slice cells first beyond) with
        | mk ys k =>
          simp only [hrun, ← ih (level + 1)]
          cases quickSortTrace part applied less depth (level + 1) (splice cells first ys) first
              (first + k) with
          | none => rfl
          | some r =>
            simp only [Option.bind_some, Option.map_some, Option.map_map]
            rfl
    · rw [if_neg hne, if_neg hne]
      rfl

/-! ## One level -/

/-- What a successful call on a non-empty range has done. -/
theorem quickSortTrace_cons {depth level first beyond : Nat} {cells cells' : List α}
    {es : List (Event α)} (hne : first ≠ beyond)
    (h : quickSortTrace part applied less (depth + 1) level cells first beyond
      = some (cells', es)) :
    ∃ pivot ys k mid left right, cells[first]? = some pivot ∧
      part.run (fun x => less x pivot) (slice cells first beyond) = (ys, k) ∧
      quickSortTrace part applied less depth (level + 1) (splice cells first ys) first (first + k)
        = some (mid, left) ∧
      quickSortTrace part applied less depth (level + 1) mid (max (first + 1) (first + k)) beyond
        = some (cells', right) ∧
      es = (applied (fun x => less x pivot) (slice cells first beyond)).map (Event.less · pivot)
        ++ .call ⟨level + 1, first, beyond, first, first + k⟩ :: left
        ++ .call ⟨level + 1, first, beyond, max (first + 1) (first + k), beyond⟩ :: right := by
  rw [quickSortTrace, if_pos hne] at h
  cases hread : cells[first]? with
  | none => rw [hread] at h; exact absurd h (by simp)
  | some pivot =>
    cases hrun : part.run (fun x => less x pivot) (slice cells first beyond) with
    | mk ys k =>
      simp only [hread, hrun, Option.bind_eq_some_iff, Option.map_eq_some_iff, Prod.exists,
        Prod.mk.injEq] at h
      obtain ⟨mid, left, hleft, cells'', right, hright, rfl, rfl⟩ := h
      exact ⟨pivot, ys, k, mid, left, right, rfl, hrun, hleft, hright, rfl⟩

/-- A call on an empty range does nothing. -/
theorem quickSortTrace_nil {depth level first : Nat} {cells cells' : List α}
    {es : List (Event α)}
    (h : quickSortTrace part applied less depth level cells first first = some (cells', es)) :
    cells' = cells ∧ es = [] := by
  cases depth with
  | zero => cases h
  | succ depth =>
    rw [quickSortTrace, if_neg (by simp), Option.some.injEq, Prod.mk.injEq] at h
    exact ⟨h.1.symm, h.2.symm⟩

/-- More depth does not change a result. -/
theorem quickSortTrace_mono :
    ∀ (depth more level : Nat) (cells : List α) (first beyond : Nat) (r : List α × List (Event α)),
      depth ≤ more →
      quickSortTrace part applied less depth level cells first beyond = some r →
      quickSortTrace part applied less more level cells first beyond = some r := by
  intro depth
  induction depth with
  | zero => intro more level cells first beyond r _ h; cases h
  | succ depth ih =>
    intro more level cells first beyond r hle h
    obtain ⟨more, rfl⟩ : ∃ m, more = m + 1 := ⟨more - 1, by omega⟩
    obtain ⟨cells', es⟩ := r
    by_cases hne : first ≠ beyond
    · obtain ⟨pivot, ys, k, mid, left, right, hread, hrun, hleft, hright, rfl⟩ :=
        quickSortTrace_cons hne h
      have hleft' := ih more _ _ _ _ _ (by omega) hleft
      have hright' := ih more _ _ _ _ _ (by omega) hright
      rw [quickSortTrace, if_pos hne]
      simp only [hread, hrun, hleft', Option.bind_some, hright', Option.map_some]
    · rw [quickSortTrace, if_neg hne] at h ⊢
      exact h

/-- The sizes at one level, for an irreflexive comparator: the partition keeps
the number of cells, and the boundary is off the end. -/
theorem partition_sizes (hirr : Irreflexive less) {cells : List α} {first beyond k : Nat}
    {pivot : α} {ys : List α} (hlt : first < beyond) (hb : beyond ≤ cells.length)
    (hread : cells[first]? = some pivot)
    (hrun : part.run (fun x => less x pivot) (slice cells first beyond) = (ys, k)) :
    k < beyond - first ∧ (splice cells first ys).length = cells.length := by
  have hsl : (slice cells first beyond).length = beyond - first := slice_length cells hb
  have hmem : pivot ∈ slice cells first beyond := by
    rw [slice_eq_cons hlt hread]
    exact List.mem_cons_self
  have hk := part.boundary_lt (p := fun x => less x pivot) hmem (hirr pivot)
  have hys := (part.run_spec hrun).1.length_eq
  rw [hrun, hsl] at hk
  exact ⟨hk, splice_length cells ys (by omega)⟩

theorem quickSortTrace_length {depth level first beyond : Nat} {cells cells' : List α}
    {es : List (Event α)} (hfb : first ≤ beyond) (hb : beyond ≤ cells.length)
    (h : quickSortTrace part applied less depth level cells first beyond = some (cells', es)) :
    cells'.length = cells.length := by
  have herase := quickSortTrace_erase part applied less depth level cells first beyond
  rw [h] at herase
  exact quickSort_length hfb hb herase.symm

/-! ## Where the calls are -/

/-- The call is on a range inside that of its caller, which is inside
`[first, beyond)`, and its level is one that a range of this length allows. -/
structure NestedCall.Inside (c : NestedCall) (level first beyond : Nat) : Prop where
  caller_start : first ≤ c.callerFirst
  start : c.callerFirst ≤ c.first
  ordered : c.first ≤ c.beyond
  stop : c.beyond ≤ c.callerBeyond
  caller_stop : c.callerBeyond ≤ beyond
  depth : c.level ≤ level + (beyond - first)

/-- What is inside a smaller range, one level deeper, is inside the larger
one. -/
theorem NestedCall.Inside.widen {c : NestedCall} {level first beyond first' beyond' : Nat}
    (h : c.Inside (level + 1) first' beyond') (hstart : first ≤ first') (hstop : beyond' ≤ beyond)
    (hsmaller : beyond' - first' < beyond - first) : c.Inside level first beyond where
  caller_start := Nat.le_trans hstart h.caller_start
  start := h.start
  ordered := h.ordered
  stop := h.stop
  caller_stop := Nat.le_trans h.caller_stop hstop
  depth := by
    have := h.depth
    omega

/-- **Nested calls stay inside.** By induction on the depth: both calls of a
level are on smaller ranges, and everything further down is inside those. -/
theorem quickSortTrace_calls (hirr : Irreflexive less) :
    ∀ (depth level : Nat) (cells : List α) (first beyond : Nat) (cells' : List α)
      (es : List (Event α)), first ≤ beyond → beyond ≤ cells.length →
      quickSortTrace part applied less depth level cells first beyond = some (cells', es) →
      ∀ c, .call c ∈ es → c.Inside level first beyond := by
  intro depth
  induction depth with
  | zero => intro level cells first beyond cells' es _ _ h; cases h
  | succ depth ih =>
    intro level cells first beyond cells' es hfb hb h c hc
    by_cases hne : first ≠ beyond
    · obtain ⟨pivot, ys, k, mid, left, right, hread, hrun, hleft, hright, rfl⟩ :=
        quickSortTrace_cons hne h
      obtain ⟨hk, hlen⟩ := partition_sizes hirr (by omega) hb hread hrun
      have hmid := quickSortTrace_length (by omega) (by omega) hleft
      simp only [List.mem_append, List.mem_cons, List.mem_map, reduceCtorEq, and_false,
        exists_false, false_or, Event.call.injEq] at hc
      rcases hc with (rfl | hc) | (rfl | hc)
      · -- the left call
        constructor <;> simp only <;> omega
      · refine (ih _ _ _ _ _ _ (by omega) (by omega) hleft c hc).widen ?_ ?_ ?_ <;> omega
      · -- the right call, which starts behind the boundary and behind `first`
        constructor <;> simp only <;> omega
      · refine (ih _ _ _ _ _ _ (by omega) (by omega) hright c hc).widen ?_ ?_ ?_ <;> omega
    · have heq : first = beyond := not_not.mp hne
      subst heq
      rw [(quickSortTrace_nil h).2] at hc
      exact absurd hc List.not_mem_nil

/-- The traced function ends, with one level for each cell and one more, and
with the cells of `quickSort`. -/
theorem quickSortTrace_total (part : StdPartition α) (applied : (α → Bool) → List α → List α)
    (hirr : Irreflexive less) (level : Nat) (cells : List α) {first beyond : Nat}
    (hfb : first ≤ beyond) (hb : beyond ≤ cells.length) :
    ∃ cells' es, ∀ depth, beyond - first < depth →
      quickSortTrace part applied less depth level cells first beyond = some (cells', es) ∧
      quickSort part less depth cells first beyond = some cells' := by
  obtain ⟨out, -, -, hrun⟩ := quickSort_result part hirr cells hfb hb
  have h := quickSortTrace_erase part applied less (beyond - first + 1) level cells first beyond
  rw [hrun _ (Nat.lt_succ_self _)] at h
  obtain ⟨⟨cells', es⟩, htrace, rfl⟩ := Option.map_eq_some_iff.mp h
  exact ⟨splice cells first out, es,
    fun depth hd => ⟨quickSortTrace_mono _ depth _ _ _ _ _ hd htrace, hrun depth hd⟩⟩

/-- **`quick_sort` ends, inside its range.** For every irreflexive comparator,
every partition with the documented contract and every range of a sequence:
one level for each cell and one more is enough, every nested call is on a range
inside that of its caller, the range is permuted, and the other cells are as
before. -/
theorem quickSort_calls_nested (part : StdPartition α)
    (applied : (α → Bool) → List α → List α) (hirr : Irreflexive less) (cells : List α)
    {first beyond : Nat} (hfb : first ≤ beyond) (hb : beyond ≤ cells.length) :
    ∃ cells' es, (∀ depth, beyond - first < depth →
        quickSortTrace part applied less depth 1 cells first beyond = some (cells', es) ∧
        quickSort part less depth cells first beyond = some cells') ∧
      (∀ c, .call c ∈ es → c.level ≤ beyond - first + 1 ∧ c.first ≤ c.beyond ∧
        c.callerFirst ≤ c.first ∧ c.beyond ≤ c.callerBeyond ∧
        first ≤ c.first ∧ c.beyond ≤ beyond) ∧
      (slice cells' first beyond).Perm (slice cells first beyond) ∧
      cells'.length = cells.length ∧
      ∀ i, i < first ∨ beyond ≤ i → cells'[i]? = cells[i]? := by
  obtain ⟨cells', es, hends⟩ := quickSortTrace_total part applied hirr 1 cells hfb hb
  obtain ⟨htrace, hrun⟩ := hends _ (Nat.lt_succ_self _)
  obtain ⟨hperm, hframe⟩ := quickSort_perm_frame hfb hb hrun
  refine ⟨cells', es, hends, ?_, hperm, quickSort_length hfb hb hrun, hframe⟩
  intro c hc
  have hin := quickSortTrace_calls hirr _ _ _ _ _ _ _ hfb hb htrace c hc
  have hdepth := hin.depth
  exact ⟨by omega, hin.ordered, hin.start, hin.stop, Nat.le_trans hin.caller_start hin.start,
    Nat.le_trans hin.stop hin.caller_stop⟩

/-- Each of three values is less than the next one around: irreflexive, and
not transitive. -/
def aroundLess (x y : Fin 3) : Bool := y = x + 1

theorem aroundLess_irreflexive : Irreflexive aroundLess := by
  intro x
  revert x
  decide

/-- The theorem for that comparator, on the last three of four cells. -/
theorem quickSort_calls_nested_around :
    ∃ cells' es, (∀ depth, 4 - 1 < depth →
        quickSortTrace stablePartition (fun _ xs => xs) aroundLess depth 1 [0, 0, 1, 2] 1 4
          = some (cells', es) ∧
        quickSort stablePartition aroundLess depth [0, 0, 1, 2] 1 4 = some cells') ∧
      (∀ c, .call c ∈ es → c.level ≤ 4 - 1 + 1 ∧ c.first ≤ c.beyond ∧
        c.callerFirst ≤ c.first ∧ c.beyond ≤ c.callerBeyond ∧ 1 ≤ c.first ∧ c.beyond ≤ 4) ∧
      (slice cells' 1 4).Perm (slice [0, 0, 1, 2] 1 4) ∧
      cells'.length = ([0, 0, 1, 2] : List (Fin 3)).length ∧
      ∀ i, i < 1 ∨ 4 ≤ i → cells'[i]? = ([0, 0, 1, 2] : List (Fin 3))[i]? :=
  quickSort_calls_nested stablePartition (fun _ xs => xs) aroundLess_irreflexive [0, 0, 1, 2]
    (by decide) (by decide)

end Satf.Sort
