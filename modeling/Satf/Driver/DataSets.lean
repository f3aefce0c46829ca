import Satf.Driver.Main
import Mathlib.Algebra.Order.Field.Rat

/-!
# The four vectors of the driver loop

What `random_data`, `sorted_data`, `reverse_sorted_data` and
`partially_sorted_data` hold when a pass through the loop has done its pushes,
for every pass, also of the loop that never ends. The elements are `int`: the
loop counter and `max_size - i` are converted from `unsigned int`, and so are
the two bounds of the distribution.

> `ordered_pushes_iff`: the vectors have the lengths, bounds and orders their
> names promise exactly as long as no pushed value and no bound meets the sign
> bit on its way; so do those of every task of a driver whose bounds are below
> it (`scheduled_ordered`).

> `partially_sorted_never_half`: the fourth vector is filled like the second,
> with an exact midpoint test its sort finds a sorted vector, and so it is
> never anything but the second vector again.
-/

namespace Satf.Driver

open Satf.Lib Satf.Measure

/-! ## Passes -/

/-- What `dice()` returns, one value after the other. Boost promises values
between the two bounds, as long as these are in order. -/
structure Dice (o : Options) where
  value : Nat → Int
  inRange : intOfUnsigned o.minSize ≤ intOfUnsigned o.maxSize →
    ∀ n, intOfUnsigned o.minSize ≤ value n ∧ value n ≤ intOfUnsigned o.maxSize

/-- The loop counter in a pass, and everything that `main` has done in the loop
up to the pushes of that pass and the sort behind them. -/
structure Pass where
  counter : UInt32
  acts : List MainAct

/-- The vectors at that point. -/
def Pass.vectors (p : Pass) : Vectors := vectorsAfter emptyVectors p.acts

variable (isMidpoint : UInt32 → UInt32 → Bool) (o : Options)

/-- The pass after `n` more of them, of a loop that is about to test `i`, has
taken `drawn` values from the dice, and has done `before`; `none` if the loop
ends earlier. -/
def passFrom (dice : Nat → Int) : Nat → UInt32 → Nat → List MainAct → Option Pass
  | 0, i, drawn, before =>
    if i ≤ o.maxSize then some ⟨i, before ++ pushes isMidpoint o i (dice drawn)⟩ else none
  | n + 1, i, drawn, before =>
    if i ≤ o.maxSize then
      passFrom dice n (i + 1) (drawn + 1) (before ++ iteration isMidpoint o i (dice drawn))
    else none

/-- The pass after the first `n`, so the one that brings the vectors to length
`n + 1`. -/
def nthPass (dice : Nat → Int) (n : Nat) : Option Pass := passFrom isMidpoint o dice n 1 0 []

variable {isMidpoint o}

/-- The loop makes a pass for every size up to `max_size`. -/
theorem nthPass_exists (dice : Nat → Int) {n : Nat} (hn : n < o.maxSize.toNat) :
    ∃ p, nthPass isMidpoint o dice n = some p := by
  have hrun : ∀ (n : Nat) (i : UInt32) (drawn : Nat) (before : List MainAct),
      i.toNat + n ≤ o.maxSize.toNat →
      ∃ p, passFrom isMidpoint o dice n i drawn before = some p := by
    intro n
    induction n with
    | zero =>
      intro i drawn before hi
      rw [passFrom, if_pos (UInt32.le_iff_toNat_le.mpr hi)]
      exact ⟨_, rfl⟩
    | succ n ih =>
      intro i drawn before hi
      have hmax := o.maxSize.toNat_lt
      have hnext : (i + 1).toNat = i.toNat + 1 := by
        rw [UInt32.toNat_add, UInt32.toNat_one, Nat.mod_eq_of_lt (by omega)]
      rw [passFrom, if_pos (by rw [UInt32.le_iff_toNat_le]; omega)]
      exact ih _ _ _ (by omega)
  exact hrun n 1 0 [] (by rw [UInt32.toNat_one]; omega)

/-- The passes are those of the loop: after its acts, `main` schedules or not,
and goes on. -/
theorem forLoop_passFrom {dice : Nat → Int} :
    ∀ (n fuel : Nat) (i : UInt32) (drawn : Nat) (before script : List MainAct) (p : Pass),
      forLoop isMidpoint o dice fuel i drawn = some script →
      passFrom isMidpoint o dice n i drawn before = some p →
      ∃ rest, before ++ script
        = p.acts ++ (if p.counter < o.minSize then [] else schedules) ++ rest := by
  intro n
  induction n with
  | zero =>
    intro fuel i drawn before script p hloop hpass
    cases fuel with
    | zero => cases hloop
    | succ fuel =>
      rw [passFrom] at hpass
      rw [forLoop] at hloop
      by_cases hgo : i ≤ o.maxSize
      · rw [if_pos hgo] at hpass hloop
        obtain ⟨rest, -, rfl⟩ := Option.map_eq_some_iff.mp hloop
        cases hpass
        refine ⟨rest, ?_⟩
        simp only [iteration, List.append_assoc]
      · rw [if_neg hgo] at hpass
        cases hpass
  | succ n ih =>
    intro fuel i drawn before script p hloop hpass
    cases fuel with
    | zero => cases hloop
    | succ fuel =>
      rw [passFrom] at hpass
      rw [forLoop] at hloop
      by_cases hgo : i ≤ o.maxSize
      · rw [if_pos hgo] at hpass hloop
        obtain ⟨rest, hrest, rfl⟩ := Option.map_eq_some_iff.mp hloop
        have hsplit := ih fuel _ _ _ _ _ hrest hpass
        rw [List.append_assoc] at hsplit
        exact hsplit
      · rw [if_neg hgo] at hpass
        cases hpass

/-- What the loop schedules in a pass is on the vectors of that pass. -/
theorem loop_schedules_pass {dice : Nat → Int} {fuel n : Nat} {script : List MainAct} {p : Pass}
    (hloop : forLoop isMidpoint o dice fuel 1 0 = some script)
    (hpass : nthPass isMidpoint o dice n = some p) (hmin : ¬ p.counter < o.minSize) {t : Task}
    (ht : t ∈ tasksAt p.vectors) : t ∈ scheduledTasks emptyVectors script := by
  obtain ⟨rest, hsplit⟩ := forLoop_passFrom n fuel 1 0 [] script p hloop hpass
  rw [List.nil_append, if_neg hmin] at hsplit
  rw [hsplit, scheduledTasks_append, scheduledTasks_append, scheduledTasks_schedules]
  exact List.mem_append_left _ (List.mem_append_right _ ht)

/-! ## What the vectors hold -/

/-- The vectors after `k` passes. Of the fourth one only the length is fixed,
whatever the midpoint test says. -/
structure Filled (o : Options) (dice : Nat → Int) (k : Nat) (data : Vectors) : Prop where
  random : data .random = (List.range k).map dice
  sorted : data .sorted = (List.range k).map fun j => intOfUnsigned (UInt32.ofNat (j + 1))
  reverse : data .reverseSorted
    = (List.range k).map fun j => intOfUnsigned (o.maxSize - UInt32.ofNat (j + 1))
  partially : (data .partiallySorted).length = k

theorem Filled.init {dice : Nat → Int} : Filled o dice 0 emptyVectors := ⟨rfl, rfl, rfl, rfl⟩

/-- The pushes of one pass, before the sort at the midpoint. -/
theorem vectorsAfter_pushes (data : Vectors) (i : UInt32) (x : Int) :
    vectorsAfter data (pushes isMidpoint o i x) .random = data .random ++ [x] ∧
    vectorsAfter data (pushes isMidpoint o i x) .sorted = data .sorted ++ [intOfUnsigned i] ∧
    vectorsAfter data (pushes isMidpoint o i x) .reverseSorted
      = data .reverseSorted ++ [intOfUnsigned (o.maxSize - i)] ∧
    vectorsAfter data (pushes isMidpoint o i x) .partiallySorted
      = if isMidpoint i o.maxSize then ascending (data .partiallySorted ++ [intOfUnsigned i])
        else data .partiallySorted ++ [intOfUnsigned i] := by
  unfold pushes
  rw [vectorsAfter_append]
  cases isMidpoint i o.maxSize <;> exact ⟨rfl, rfl, rfl, rfl⟩

theorem map_range_succ {β : Type} (f : Nat → β) (k : Nat) :
    (List.range (k + 1)).map f = (List.range k).map f ++ [f k] := by
  rw [List.range_succ, List.map_append, List.map_singleton]

/-- One pass. -/
theorem Filled.pass {dice : Nat → Int} {k : Nat} {data : Vectors} (h : Filled o dice k data) :
    Filled o dice (k + 1)
      (vectorsAfter data (pushes isMidpoint o (UInt32.ofNat (k + 1)) (dice k))) := by
  obtain ⟨hrandom, hsorted, hreverse, hpartially⟩ :=
    @vectorsAfter_pushes isMidpoint o data (UInt32.ofNat (k + 1)) (dice k)
  refine ⟨?_, ?_, ?_, ?_⟩
  · rw [hrandom, h.random, map_range_succ]
  · rw [hsorted, h.sorted, map_range_succ]
  · rw [hreverse, h.reverse, map_range_succ]
  · rw [hpartially]
    split
    next => rw [(ascending_perm _).length_eq, List.length_append, h.partially, List.length_singleton]
    next => rw [List.length_append, h.partially, List.length_singleton]

/-- What every pass preserves holds in all of them. The loop counter of pass
`n` is `n + 1`, up to its wrapping. -/
theorem nthPass_invariant {dice : Nat → Int} {inv : Nat → Vectors → Prop}
    (hinit : inv 0 emptyVectors)
    (hstep : ∀ k data, inv k data → UInt32.ofNat (k + 1) ≤ o.maxSize →
      inv (k + 1) (vectorsAfter data (pushes isMidpoint o (UInt32.ofNat (k + 1)) (dice k))))
    {n : Nat} {p : Pass} (h : nthPass isMidpoint o dice n = some p) :
    p.counter = UInt32.ofNat (n + 1) ∧ p.counter ≤ o.maxSize ∧ inv (n + 1) p.vectors := by
  have hrun : ∀ (n k : Nat) (before : List MainAct), inv k (vectorsAfter emptyVectors before) →
      passFrom isMidpoint o dice n (UInt32.ofNat (k + 1)) k before = some p →
      p.counter = UInt32.ofNat (k + n + 1) ∧ p.counter ≤ o.maxSize ∧ inv (k + n + 1) p.vectors := by
    intro n
    induction n with
    | zero =>
      intro k before hinv hpass
      rw [passFrom] at hpass
      by_cases hgo : UInt32.ofNat (k + 1) ≤ o.maxSize
      · rw [if_pos hgo] at hpass
        cases hpass
        refine ⟨rfl, hgo, ?_⟩
        rw [Pass.vectors, vectorsAfter_append]
        exact hstep k _ hinv hgo
      · rw [if_neg hgo] at hpass
        cases hpass
    | succ n ih =>
      intro k before hinv hpass
      rw [passFrom] at hpass
      by_cases hgo : UInt32.ofNat (k + 1) ≤ o.maxSize
      · rw [if_pos hgo] at hpass
        have hnext : UInt32.ofNat (k + 1) + 1 = UInt32.ofNat (k + 1 + 1) := by
          rw [UInt32.ofNat_add (k + 1) 1]
          rfl
        rw [hnext] at hpass
        have hgrown := ih (k + 1) _ (by
          rw [vectorsAfter_append, vectorsAfter_iteration]
          exact hstep k _ hinv hgo) hpass
        rw [show k + (n + 1) + 1 = k + 1 + n + 1 by omega]
        exact hgrown
      · rw [if_neg hgo] at hpass
        cases hpass
  have hfrom := hrun n 0 [] hinit h
  rw [Nat.zero_add] at hfrom
  exact hfrom

/-- The vectors of every pass. -/
theorem nthPass_filled {dice : Nat → Int} {n : Nat} {p : Pass}
    (h : nthPass isMidpoint o dice n = some p) :
    p.counter = UInt32.ofNat (n + 1) ∧ p.counter ≤ o.maxSize ∧
      Filled o dice (n + 1) p.vectors :=
  nthPass_invariant Filled.init (fun _ _ hfilled _ => hfilled.pass) h

/-! ## Order -/

/-- `unsigned int` to `int`, by the sign bit. -/
theorem intOfUnsigned_eq (u : UInt32) :
    intOfUnsigned u = if u.toNat < 2 ^ 31 then (u.toNat : Int) else u.toNat - 2 ^ 32 := by
  unfold intOfUnsigned
  rw [BitVec.toInt_eq_toNat_cond]
  show (if 2 * u.toNat < 2 ^ 32 then (u.toNat : Int) else u.toNat - (2 ^ 32 : Nat)) = _
  by_cases h : u.toNat < 2 ^ 31
  · rw [if_pos h, if_pos (by omega)]
  · rw [if_neg h, if_neg (by omega)]
    rfl

theorem pairwise_map_range {β : Type} {R : β → β → Prop} {f : Nat → β} {k : Nat} :
    ((List.range k).map f).Pairwise R ↔ ∀ a b, a < b → b < k → R (f a) (f b) := by
  rw [List.pairwise_map, List.pairwise_iff_getElem]
  constructor
  · intro h a b hab hb
    have hR := h a b (by rw [List.length_range]; omega) (by rw [List.length_range]; omega) hab
    rwa [List.getElem_range, List.getElem_range] at hR
  · intro h a b ha hb hab
    rw [List.length_range] at hb
    rw [List.getElem_range, List.getElem_range]
    exact h a b hab hb

/-- What the names of the vectors and the options promise after the pushes of a
pass. -/
structure OrderedPushes (o : Options) (p : Pass) : Prop where
  lengths : ∀ j, (p.vectors j).length = p.counter.toNat
  bounds : intOfUnsigned o.minSize ≤ intOfUnsigned o.maxSize
  drawn : ∀ x ∈ p.vectors .random,
    intOfUnsigned o.minSize ≤ x ∧ x ≤ intOfUnsigned o.maxSize
  ascending : (p.vectors .sorted).Pairwise (· < ·)
  descending : (p.vectors .reverseSorted).Pairwise (· > ·)

/-- The sign bit is out of the way of `k` pushes: the counter has not reached
it, and either both bounds are below it, or both are not and `max_size - i` has
not come down to it from above. -/
def SignBitClear (o : Options) (k : Nat) : Prop :=
  k < 2 ^ 31 ∧ (o.maxSize.toNat < 2 ^ 31 ∨
    2 ^ 31 ≤ o.minSize.toNat ∧ (o.maxSize.toNat = 2 ^ 31 ∨ k ≤ o.maxSize.toNat - 2 ^ 31))

/-- The pushed counters are ascending as long as they are positive. -/
theorem sorted_ascending_iff {k : Nat} :
    ((List.range k).map fun j => intOfUnsigned (UInt32.ofNat (j + 1))).Pairwise (· < ·) ↔
      k < 2 ^ 31 := by
  have hpushed : ∀ j, j + 1 < 2 ^ 32 → (UInt32.ofNat (j + 1)).toNat = j + 1 := by
    intro j hj
    rw [UInt32.toNat_ofNat', Nat.mod_eq_of_lt hj]
  rw [pairwise_map_range]
  constructor
  · intro h
    by_contra hlong
    -- `2^31 - 1` is followed by `-2^31`
    have hstep := h (2 ^ 31 - 2) (2 ^ 31 - 1) (by omega) (by omega)
    rw [intOfUnsigned_eq, intOfUnsigned_eq, hpushed _ (by omega), hpushed _ (by omega)] at hstep
    exact absurd hstep (by decide)
  · intro hk a b hab hb
    rw [intOfUnsigned_eq, intOfUnsigned_eq, hpushed a (by omega), hpushed b (by omega),
      if_pos (by omega), if_pos (by omega)]
    omega

/-- The pushed differences are descending as long as they stay on one side of
the sign bit. -/
theorem reverse_descending_iff {max : UInt32} {k : Nat} (hk : k ≤ max.toNat) :
    ((List.range k).map fun j => intOfUnsigned (max - UInt32.ofNat (j + 1))).Pairwise (· > ·) ↔
      max.toNat < 2 ^ 31 ∨ max.toNat = 2 ^ 31 ∨ k ≤ max.toNat - 2 ^ 31 := by
  have hmax := max.toNat_lt
  have hpushed : ∀ j < k, (max - UInt32.ofNat (j + 1)).toNat = max.toNat - (j + 1) := by
    intro j hj
    have hof : (UInt32.ofNat (j + 1)).toNat = j + 1 := by
      rw [UInt32.toNat_ofNat', Nat.mod_eq_of_lt (by omega)]
    rw [UInt32.toNat_sub_of_le _ _ (by rw [UInt32.le_iff_toNat_le]; omega), hof]
  rw [pairwise_map_range]
  constructor
  · intro h
    by_contra hcross
    -- `-2^31` is followed by `2^31 - 1`
    have hstep := h (max.toNat - 2 ^ 31 - 1) (max.toNat - 2 ^ 31) (by omega) (by omega)
    rw [intOfUnsigned_eq, intOfUnsigned_eq, hpushed _ (by omega), hpushed _ (by omega),
      if_neg (by omega), if_pos (by omega)] at hstep
    omega
  · intro hside a b hab hb
    rw [intOfUnsigned_eq, intOfUnsigned_eq, hpushed a (by omega), hpushed b (by omega)]
    rcases hside with hsmall | hedge | hlarge
    · rw [if_pos (by omega), if_pos (by omega)]
      omega
    · rw [if_pos (by omega), if_pos (by omega)]
      omega
    · rw [if_neg (by omega), if_neg (by omega)]
      omega

/-- The bounds of the distribution are in order when the sign bit is in neither
or in both. -/
theorem bounds_ordered_iff (o : Options) :
    intOfUnsigned o.minSize ≤ intOfUnsigned o.maxSize ↔
      o.maxSize.toNat < 2 ^ 31 ∨ 2 ^ 31 ≤ o.minSize.toNat := by
  have hle := UInt32.le_iff_toNat_le.mp o.accepted
  have hmax := o.maxSize.toNat_lt
  rw [intOfUnsigned_eq, intOfUnsigned_eq]
  by_cases hlow : o.maxSize.toNat < 2 ^ 31
  · rw [if_pos hlow, if_pos (by omega)]
    omega
  · rw [if_neg hlow]
    split
    next hmin => omega
    next hmin => omega

/-- **The driver does its work where the bounds are in order.** With a
distribution that accepts exactly the bounds that are in order, as Boost's
does, the condition is one on the options alone. -/
theorem driver_covers_iff (isMidpoint : UInt32 → UInt32 → Bool) (o : Options)
    {uniformInt : Int → Int → Option (Nat → Int)}
    (haccepts : ∀ lo hi, (uniformInt lo hi).isSome = true ↔ lo ≤ hi) :
    (∃ script enough, (∀ fuel, enough ≤ fuel → driver isMidpoint o uniformInt fuel = some script) ∧
      Covers (max o.minSize.toNat 1) o.maxSize.toNat (scheduledTasks emptyVectors script)) ↔
    (o.maxSize.toNat < 2 ^ 31 ∨ 2 ^ 31 ≤ o.minSize.toNat) ∧ o.maxSize ≠ 4294967295 := by
  rw [← bounds_ordered_iff, ← haccepts]
  constructor
  · intro hdone
    obtain ⟨script, enough, hends, -⟩ := hdone
    exact driver_ends isMidpoint o (hends enough (Nat.le_refl _))
  · intro hcond
    obtain ⟨hsome, hmax⟩ := hcond
    obtain ⟨dice, hdice⟩ := Option.isSome_iff_exists.mp hsome
    exact driver_covers isMidpoint o hdice hmax

theorem ordered_of_signBitClear (dice : Dice o) {n : Nat} {p : Pass}
    (h : nthPass isMidpoint o dice.value n = some p) (hclear : SignBitClear o (n + 1)) :
    OrderedPushes o p := by
  obtain ⟨hcounter, hreached, hfilled⟩ := nthPass_filled h
  have hle := UInt32.le_iff_toNat_le.mp hreached
  obtain ⟨hk, hside⟩ := hclear
  have hcount : p.counter.toNat = n + 1 := by
    rw [hcounter, UInt32.toNat_ofNat', Nat.mod_eq_of_lt (by omega)]
  rw [hcount] at hle
  have hbounds := (bounds_ordered_iff o).mpr (by omega)
  refine ⟨?_, hbounds, ?_, ?_, ?_⟩
  · intro j
    rw [hcount]
    cases j with
    | random => rw [hfilled.random, List.length_map, List.length_range]
    | sorted => rw [hfilled.sorted, List.length_map, List.length_range]
    | reverseSorted => rw [hfilled.reverse, List.length_map, List.length_range]
    | partiallySorted => exact hfilled.partially
  · intro x hx
    rw [hfilled.random] at hx
    obtain ⟨j, -, rfl⟩ := List.mem_map.mp hx
    exact dice.inRange hbounds j
  · rw [hfilled.sorted]
    exact sorted_ascending_iff.mpr hk
  · rw [hfilled.reverse]
    exact (reverse_descending_iff hle).mpr (by omega)

/-- **The promises hold as long as the sign bit is out of the way.** For all
accepted options, every midpoint test, every random stream and every pass of
the loop, which is pass `n + 1`. -/
theorem ordered_pushes_iff (o : Options) (dice : Dice o) {n : Nat} {p : Pass}
    (h : nthPass isMidpoint o dice.value n = some p) :
    OrderedPushes o p ↔ SignBitClear o (n + 1) := by
  constructor
  · intro hordered
    obtain ⟨hcounter, hreached, hfilled⟩ := nthPass_filled h
    have hle := UInt32.le_iff_toNat_le.mp hreached
    have hasc := hordered.ascending
    rw [hfilled.sorted, sorted_ascending_iff] at hasc
    rw [hcounter, UInt32.toNat_ofNat', Nat.mod_eq_of_lt (by omega)] at hle
    have hdesc := hordered.descending
    rw [hfilled.reverse, reverse_descending_iff hle] at hdesc
    have hbounds := (bounds_ordered_iff o).mp hordered.bounds
    refine ⟨hasc, ?_⟩
    omega
  · exact ordered_of_signBitClear dice h

/-- Sizes from one to four. -/
def sizesToFour : Options := ⟨1, 4, 2, by decide⟩

/-- A dice that shows one. -/
def diceOfOne : Dice sizesToFour where
  value _ := 1
  inRange _ _ := by decide

/-- The theorem on the third pass. -/
theorem ordered_pushes_three_of_four :
    ∃ p, nthPass (fun _ _ => false) sizesToFour diceOfOne.value 2 = some p ∧
      OrderedPushes sizesToFour p := by
  obtain ⟨p, hp⟩ := @nthPass_exists (fun _ _ => false) sizesToFour diceOfOne.value 2 (by decide)
  have hclear : SignBitClear sizesToFour (2 + 1) := ⟨by decide, .inl (by decide)⟩
  exact ⟨p, hp, (ordered_pushes_iff sizesToFour diceOfOne hp).mpr hclear⟩

/-- Both bounds just above the sign bit. -/
def aboveSignBit : Options := ⟨2147483649, 2147483649, 2, UInt32.le_refl _⟩

/-- A dice that shows the only value between them. -/
def diceAboveSignBit : Dice aboveSignBit where
  value _ := -2147483647
  inRange _ _ := by decide

/-- In the second pass `max_size - i` has come down to the sign bit, and the
reverse sorted vector goes up. -/
theorem ordered_pushes_sign_bit :
    ∃ p, nthPass (fun _ _ => false) aboveSignBit diceAboveSignBit.value 1 = some p ∧
      p.vectors .reverseSorted = [-2147483648, 2147483647] ∧ ¬ OrderedPushes aboveSignBit p := by
  obtain ⟨p, hp⟩ := @nthPass_exists (fun _ _ => false) aboveSignBit diceAboveSignBit.value 1
    (by decide)
  have hreverse : p.vectors .reverseSorted = [-2147483648, 2147483647] := by
    rw [(nthPass_filled hp).2.2.reverse]
    rfl
  refine ⟨p, hp, hreverse, ?_⟩
  intro h
  have hdesc := h.descending
  rw [hreverse] at hdesc
  exact absurd hdesc (by decide)

/-- **The tasks are bound to ordered vectors.** Below the sign bit, every task
that the driver schedules is bound to a vector of a pass whose vectors are what
their names promise. -/
theorem scheduled_ordered {uniformInt : Int → Int → Option (Nat → Int)} (dice : Dice o)
    (hdice : uniformInt (intOfUnsigned o.minSize) (intOfUnsigned o.maxSize) = some dice.value)
    (hlow : o.maxSize.toNat < 2 ^ 31) {script : List MainAct} {enough : Nat}
    (hends : ∀ fuel, enough ≤ fuel → driver isMidpoint o uniformInt fuel = some script) {t : Task}
    (ht : t ∈ scheduledTasks emptyVectors script) :
    ∃ p, OrderedPushes o p ∧ t.data = p.vectors t.dataTraits := by
  have hmax := (driver_ends isMidpoint o (hends enough (Nat.le_refl _))).2
  obtain ⟨script', hloop, hcov⟩ := loop_covers isMidpoint o dice.value hmax
  have hfuel := hends (max enough (o.maxSize.toNat + 1)) (Nat.le_max_left _ _)
  have hloop' := hloop (max enough (o.maxSize.toNat + 1)) (Nat.le_max_right _ _)
  rw [driver, hdice, Option.bind_some, hloop'] at hfuel
  cases hfuel
  -- the pass that brought the vectors to the size of the task
  obtain ⟨hlo, hhi⟩ := hcov.length_mem ht
  obtain ⟨p, hpass⟩ := @nthPass_exists isMidpoint o dice.value (t.data.length - 1) (by omega)
  have hordered : OrderedPushes o p := ordered_of_signBitClear dice hpass ⟨by omega, .inl hlow⟩
  have hcounter : p.counter.toNat = t.data.length := by
    rw [(nthPass_filled hpass).1, UInt32.toNat_ofNat', Nat.mod_eq_of_lt (by omega)]
    omega
  have hmin : ¬ p.counter < o.minSize := by
    rw [UInt32.lt_iff_toNat_lt]
    omega
  have hbound : (⟨.heapSort, p.vectors t.dataTraits, t.dataTraits⟩ : Task) ∈ tasksAt p.vectors := by
    cases t.dataTraits <;> simp [tasksAt, DataSet.all, scheduledAlgorithms]
  refine ⟨p, hordered, hcov.equal t ht _ (loop_schedules_pass hloop' hpass hmin hbound) rfl ?_⟩
  rw [hordered.lengths, hcounter]

/-! ## The fourth vector -/

/-- `i / (float)max_size == 0.5`, with exact division. -/
def exactMidpoint (i max : UInt32) : Bool := decide ((i.toNat : ℚ) / max.toNat = 1 / 2)

/-- The midpoint is a half, so `max_size` is even. -/
theorem double_of_exactMidpoint {i max : UInt32} (h : exactMidpoint i max = true) :
    2 * i.toNat = max.toNat := by
  unfold exactMidpoint at h
  rw [decide_eq_true_eq] at h
  have hmax : (max.toNat : ℚ) ≠ 0 := by
    intro hzero
    rw [hzero, div_zero] at h
    exact absurd h.symm (one_div_ne_zero two_ne_zero)
  rw [div_eq_div_iff hmax two_ne_zero] at h
  have hnat : i.toNat * 2 = 1 * max.toNat := by exact_mod_cast h
  omega

/-- A vector in ascending order is left as it is. -/
theorem ascending_of_ascending {xs : List Int} (h : xs.Pairwise (· ≤ ·)) : ascending xs = xs :=
  sorted_perm_unique (ascending_sorted xs) (sorted_lessOf_iff.mpr h) (ascending_perm xs)

/-- Filled, with the fourth vector like the second, in a pass that the loop
counter has reached without wrapping, or where `max_size` is odd. -/
structure FilledTwice (o : Options) (dice : Nat → Int) (k : Nat) (data : Vectors) : Prop
    extends Filled o dice k data where
  same : data .partiallySorted = data .sorted
  reached : k ≤ o.maxSize.toNat ∨ o.maxSize = 4294967295

/-- One pass keeps the fourth vector like the second: at the midpoint there is
nothing to sort. -/
theorem FilledTwice.pass {dice : Nat → Int} {k : Nat} {data : Vectors}
    (h : FilledTwice o dice k data) (hgo : UInt32.ofNat (k + 1) ≤ o.maxSize) :
    FilledTwice o dice (k + 1)
      (vectorsAfter data (pushes exactMidpoint o (UInt32.ofNat (k + 1)) (dice k))) := by
  have hle := UInt32.le_iff_toNat_le.mp hgo
  have hfilled : Filled o dice (k + 1)
      (vectorsAfter data (pushes exactMidpoint o (UInt32.ofNat (k + 1)) (dice k))) :=
    h.toFilled.pass
  -- without wrapping, the counter is `k + 1`
  have hcounter : o.maxSize ≠ 4294967295 → (UInt32.ofNat (k + 1)).toNat = k + 1 := by
    intro hmax
    have hsucc := Options.maxSize_succ_lt hmax
    have hk := h.reached.resolve_right hmax
    rw [UInt32.toNat_ofNat', Nat.mod_eq_of_lt (by omega)]
  refine { hfilled with same := ?_, reached := ?_ }
  · obtain ⟨-, hsorted, -, hpartially⟩ :=
      @vectorsAfter_pushes exactMidpoint o data (UInt32.ofNat (k + 1)) (dice k)
    rw [hpartially, hsorted, h.same]
    by_cases hmid : exactMidpoint (UInt32.ofNat (k + 1)) o.maxSize = true
    · rw [if_pos hmid]
      have hdouble := double_of_exactMidpoint hmid
      have hodd : o.maxSize ≠ 4294967295 := by
        intro hmax
        rw [hmax, show (4294967295 : UInt32).toNat = 4294967295 from rfl] at hdouble
        omega
      rw [hcounter hodd] at hdouble
      have hmax := o.maxSize.toNat_lt
      apply ascending_of_ascending
      rw [h.sorted, ← map_range_succ]
      exact (sorted_ascending_iff.mpr (by omega)).imp le_of_lt
    · rw [if_neg hmid]
  · by_cases hmax : o.maxSize = 4294967295
    · exact .inr hmax
    · rw [hcounter hmax] at hle
      exact .inl hle

/-- The fourth vector is the second one again, in every pass. -/
theorem partiallySorted_eq_sorted {dice : Nat → Int} {n : Nat} {p : Pass}
    (h : nthPass exactMidpoint o dice n = some p) :
    p.vectors .partiallySorted = p.vectors .sorted := by
  have hinit : FilledTwice o dice 0 emptyVectors :=
    { Filled.init with same := rfl, reached := .inl (Nat.zero_le _) }
  exact (nthPass_invariant hinit (fun _ _ hfilled hgo => hfilled.pass hgo) h).2.2.same

/-- What "results in 50% sorted data" asks of the vector of size `n + 1`: for
every random stream its first half is ascending, because it has been sorted
once, and for some random stream the vector is neither ascending nor the sorted
one. -/
def HalfSorted (o : Options) (n : Nat) : Prop :=
  (∀ (dice : Dice o) (p : Pass), nthPass exactMidpoint o dice.value n = some p →
    ((p.vectors .partiallySorted).take (o.maxSize.toNat / 2)).Pairwise (· ≤ ·) ∧
      p.acts.count (.sort .partiallySorted) = 1) ∧
  ∃ (dice : Dice o) (p : Pass), nthPass exactMidpoint o dice.value n = some p ∧
    ¬ (p.vectors .partiallySorted).Pairwise (· ≤ ·) ∧
    p.vectors .partiallySorted ≠ p.vectors .sorted

/-- **The partially sorted data is the sorted data.** For no accepted options
and no size is the fourth vector half sorted. -/
theorem partially_sorted_never_half (o : Options) (n : Nat) : ¬ HalfSorted o n := by
  intro hhalf
  obtain ⟨-, dice, p, hpass, -, hdifferent⟩ := hhalf
  exact hdifferent (partiallySorted_eq_sorted hpass)

/-- Size three of four, behind the midpoint, with any random stream. -/
theorem partially_sorted_three_of_four :
    (∀ dice : Dice sizesToFour, ∃ p, nthPass exactMidpoint sizesToFour dice.value 2 = some p ∧
      p.vectors .partiallySorted = [1, 2, 3] ∧ p.vectors .sorted = [1, 2, 3]) ∧
    ¬ HalfSorted sizesToFour 2 := by
  constructor
  · intro dice
    obtain ⟨p, hpass⟩ := @nthPass_exists exactMidpoint sizesToFour dice.value 2 (by decide)
    have hsorted : p.vectors .sorted = [1, 2, 3] := by
      rw [(nthPass_filled hpass).2.2.sorted]
      rfl
    exact ⟨p, hpass, by rw [partiallySorted_eq_sorted hpass, hsorted], hsorted⟩
  · intro hhalf
    obtain ⟨-, dice, p, hpass, -, hdifferent⟩ := hhalf
    exact hdifferent (partiallySorted_eq_sorted hpass)

end Satf.Driver
