import Mathlib.Algebra.Group.Nat.Defs
import Mathlib.Data.List.Basic

/-!
# Decimal text and its order

Numbers as a stream writes them (`decimal`, `decimalInt`), and numbers in a
field of fixed width (`padded`), on texts that are lists of characters.

The order on texts is the lexicographic one. Blocks of equal length compare
one after the other (`append_lt_append_iff`), and a padded field compares like
its number (`padded_lt_iff`): a text made of fixed-width fields is ordered
like the tuple of what its fields compare by.
-/

namespace Satf.Lib

/-! ## Numbers as a stream writes them -/

/-- A natural number in decimal. -/
def decimal (n : Nat) : List Char := Nat.toDigits 10 n

/-- An integer in decimal, with a sign when it is negative. -/
def decimalInt : Int → List Char
  | .ofNat n => decimal n
  | .negSucc n => '-' :: decimal (n + 1)

theorem isDigit_of_mem_decimal {c : Char} {n : Nat} (h : c ∈ decimal n) : c.isDigit = true :=
  Nat.isDigit_of_mem_toDigits (by decide) (by decide) h

/-- Only digits and the sign occur in a number. -/
theorem mem_decimalInt {c : Char} {i : Int} (h : c ∈ decimalInt i) :
    c.isDigit = true ∨ c = '-' := by
  cases i with
  | ofNat n => exact .inl (isDigit_of_mem_decimal h)
  | negSucc n =>
    rcases List.mem_cons.mp h with rfl | hd
    · exact .inr rfl
    · exact .inl (isDigit_of_mem_decimal hd)

/-- Different numbers have different texts. -/
theorem decimal_inj {n m : Nat} : decimal n = decimal m ↔ n = m := by
  constructor
  · intro h
    have hvalue := congrArg (fun ds => Nat.ofDigitChars 10 ds 0) h
    simp only [decimal, Nat.ofDigitChars_ten_toDigits] at hvalue
    exact hvalue
  · exact congrArg decimal

/-- A number does not start with a sign. -/
theorem decimal_head (n : Nat) : ∃ c ds, decimal n = c :: ds ∧ c.isDigit = true := by
  cases h : decimal n with
  | nil => exact absurd h Nat.toDigits_ne_nil
  | cons c ds =>
    exact ⟨c, ds, rfl, isDigit_of_mem_decimal (n := n) (by rw [h]; exact List.mem_cons_self)⟩

theorem decimal_ne_sign (n : Nat) (ds : List Char) : decimal n ≠ '-' :: ds := by
  intro h
  obtain ⟨c, ds', hc, hdigit⟩ := decimal_head n
  rw [hc, List.cons.injEq] at h
  rw [h.1] at hdigit
  exact absurd hdigit (by decide)

theorem decimalInt_inj {i j : Int} : decimalInt i = decimalInt j ↔ i = j := by
  constructor
  · intro h
    cases i with
    | ofNat n =>
      cases j with
      | ofNat m => rw [decimal_inj.mp h]
      | negSucc m => exact absurd h (decimal_ne_sign n _)
    | negSucc n =>
      cases j with
      | ofNat m => exact absurd h.symm (decimal_ne_sign m _)
      | negSucc m =>
        have hsucc := decimal_inj.mp (List.cons.inj h).2
        rw [Nat.succ.inj hsucc]
  · exact congrArg decimalInt

/-! ## Fields of fixed width -/

/-- The last `w` decimal digits of `n`. -/
def padded : Nat → Nat → List Char
  | 0, _ => []
  | w + 1, n => padded w (n / 10) ++ [Nat.digitChar (n % 10)]

@[simp] theorem padded_length (w n : Nat) : (padded w n).length = w := by
  induction w generalizing n with
  | zero => rfl
  | succ w ih => rw [padded, List.length_append, ih, List.length_singleton]

/-- Blocks of equal length are compared one after the other. -/
theorem append_lt_append_iff {a b c d : List Char} (h : a.length = c.length) :
    a ++ b < c ++ d ↔ a < c ∨ (a = c ∧ b < d) := by
  induction a generalizing c with
  | nil =>
    have hc : c = [] := List.length_eq_zero_iff.mp h.symm
    subst hc
    simp
  | cons x a ih =>
    cases c with
    | nil => exact absurd h (by simp)
    | cons y c =>
      simp only [List.cons_append, List.cons_lt_cons_iff, List.cons.injEq,
        ih (Nat.succ.inj h)]
      constructor
      · intro hlt
        rcases hlt with hxy | ⟨hxy, hac | ⟨hac, hbd⟩⟩
        · exact .inl (.inl hxy)
        · exact .inl (.inr ⟨hxy, hac⟩)
        · exact .inr ⟨⟨hxy, hac⟩, hbd⟩
      · intro hlt
        rcases hlt with (hxy | ⟨hxy, hac⟩) | ⟨⟨hxy, hac⟩, hbd⟩
        · exact .inl hxy
        · exact .inr ⟨hxy, .inl hac⟩
        · exact .inr ⟨hxy, .inr ⟨hac, hbd⟩⟩

private theorem digitChar_lt : ∀ a < 10, ∀ b < 10,
    (Nat.digitChar a < Nat.digitChar b ↔ a < b) ∧
      (Nat.digitChar a = Nat.digitChar b ↔ a = b) := by
  decide

/-- Fields of one width hold different numbers if their texts differ. -/
theorem padded_inj {w n m : Nat} (hn : n < 10 ^ w) (hm : m < 10 ^ w) :
    padded w n = padded w m ↔ n = m := by
  constructor
  · intro h
    induction w generalizing n m with
    | zero => simp only [Nat.pow_zero] at hn hm; omega
    | succ w ih =>
      simp only [padded] at h
      obtain ⟨hfront, hlast⟩ := List.append_inj h (by simp)
      have hdiv := ih (by rw [Nat.pow_succ] at hn; omega) (by rw [Nat.pow_succ] at hm; omega)
        hfront
      have hmod := (digitChar_lt (n % 10) (by omega) (m % 10) (by omega)).2.mp
        (List.cons.inj hlast).1
      omega
  · intro h
    rw [h]

/-- Fields of one width compare like their numbers. -/
theorem padded_lt_iff {w n m : Nat} (hn : n < 10 ^ w) (hm : m < 10 ^ w) :
    padded w n < padded w m ↔ n < m := by
  induction w generalizing n m with
  | zero => simp only [Nat.pow_zero] at hn hm; simp [padded]; omega
  | succ w ih =>
    have hn' : n / 10 < 10 ^ w := by rw [Nat.pow_succ] at hn; omega
    have hm' : m / 10 < 10 ^ w := by rw [Nat.pow_succ] at hm; omega
    have hlast : [Nat.digitChar (n % 10)] < [Nat.digitChar (m % 10)] ↔ n % 10 < m % 10 := by
      rw [List.cons_lt_cons_iff]
      simp [(digitChar_lt (n % 10) (by omega) (m % 10) (by omega)).1]
    rw [padded, padded, append_lt_append_iff (by simp), ih hn' hm', padded_inj hn' hm', hlast]
    omega

end Satf.Lib
