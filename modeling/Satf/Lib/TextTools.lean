import Satf.Lib.Decimal
import Satf.Lib.Ordered
import Satf.Lib.Shell
import Mathlib.Data.Char
import Mathlib.Data.List.Lex
import Mathlib.Data.Prod.Lex

/-!
# Text tools of a script

Lines of a text, `sort -n`, `tail -n1`, `awk '{print $k}'` and the integer
tests of `[`, on texts that are lists of characters.

A number comes back from its decimal text, whether `sort -n` reads it at the
start of a line (`leadingInt_decimalInt`) or `[` as a word
(`testInt_decimal`).
-/

namespace Satf.Lib.Shell

/-! ## The tools -/

/-- The lines of a text, without their line breaks; a last line need not have
one. -/
def lines (t : Text) : List Text :=
  let ls := t.splitOnP (· = '\n')
  if ls.getLast? = some [] then ls.dropLast else ls

/-- The text made of these lines. -/
def unlines (ls : List Text) : Text := ls.flatMap (· ++ ['\n'])

/-- The digits at the start of a text, as a number; none are 0. -/
def leadingNat (t : Text) : Nat := Nat.ofDigitChars 10 (t.takeWhile Char.isDigit) 0

/-- The key of a line for `sort -n`, with blanks before it and a sign. Lines
with a fractional part are not read here. -/
def leadingInt (line : Text) : Int :=
  match line.dropWhile (fun c => c = ' ' || c = '\t') with
  | '-' :: ds => -leadingNat ds
  | ds => leadingNat ds

/-- Lines by key, and lines with equal keys by their bytes. -/
def sortLines (ls : List Text) : List Text :=
  (ascending (ls.map fun l => toLex (leadingInt l, l))).map fun k => (ofLex k).2

/-- `sort -n`. -/
def sortN (t : Text) : Text := unlines (sortLines (lines t))

/-- `tail -n1`. -/
def tailN1 (t : Text) : Text :=
  match (lines t).getLast? with
  | some l => l ++ ['\n']
  | none => []

/-- `awk '{print $k}'`, for `k ≥ 1`. -/
def awkPrint (k : Nat) (t : Text) : Text :=
  unlines ((lines t).map fun l => ((words l)[k - 1]?).getD [])

/-- A number made of digits only. -/
def digits (ds : Text) : Option Nat :=
  if ds ≠ [] ∧ ds.all Char.isDigit then some (leadingNat ds) else none

/-- A number with an optional sign. -/
def signedDigits : Text → Option Int
  | '-' :: ds => (digits ds).map fun n => -n
  | '+' :: ds => (digits ds).map fun n => n
  | ds => (digits ds).map fun n => n

/-- An operand of an arithmetic test: a number in the range of the shell's
integers. -/
def testOperand (w : Text) : Option Int :=
  (signedDigits w).filter fun v => -9223372036854775808 ≤ v && v < 9223372036854775808

/-- `[ $a -op $b ]`, for values that hold no operators of `[`. Anything but
two integers is an error message and not true, except that `[ -op ]` is: a
single word that is not empty. -/
def testInt (op : Int → Int → Bool) (a b : Text) : Bool :=
  match words a, words b with
  | [x], [y] =>
    match testOperand x, testOperand y with
    | some v, some w => op v w
    | _, _ => false
  | [], [] => true
  | _, _ => false

/-! ## Numbers as words -/

theorem isWord_decimalInt (i : Int) : isWord (decimalInt i) = true := by
  rw [isWord_iff]
  constructor
  · cases i with
    | ofNat n =>
      obtain ⟨c, ds, hc, -⟩ := decimal_head n
      show decimal n ≠ []
      rw [hc]
      exact List.cons_ne_nil c ds
    | negSucc n => exact List.cons_ne_nil _ _
  · intro c hc
    rcases mem_decimalInt hc with hdigit | rfl
    · -- a blank is no digit
      cases hblank : isBlank c with
      | false => rfl
      | true =>
        simp only [isBlank, Bool.or_eq_true, decide_eq_true_eq] at hblank
        rcases hblank with (rfl | rfl) | rfl <;> exact absurd hdigit (by decide)
    · rfl

theorem isWord_decimal (n : Nat) : isWord (decimal n) = true := isWord_decimalInt n

/-- Three fields with a space in between. -/
theorem words_three {a b c : Text} (ha : isWord a = true) (hb : isWord b = true)
    (hc : isWord c = true) : words (a ++ ' ' :: b ++ ' ' :: c) = [a, b, c] := by
  rw [List.append_assoc, List.cons_append, words_cons ha rfl, words_cons hb rfl,
    words_singleton hc]

/-! ## Lines -/

theorem splitOnP_unlines {ls : List Text} (h : ∀ l ∈ ls, '\n' ∉ l) :
    (unlines ls).splitOnP (· = '\n') = ls ++ [[]] := by
  induction ls with
  | nil => rfl
  | cons l ls ih =>
    have hl : ∀ c ∈ l, decide (c = '\n') = false := by
      intro c hc
      rw [decide_eq_false_iff_not]
      intro heq
      exact h l List.mem_cons_self (heq ▸ hc)
    have htext : unlines (l :: ls) = l ++ '\n' :: unlines ls := by
      simp [unlines]
    rw [htext, List.splitOnP_append_cons_of_forall_mem hl '\n' rfl,
      ih fun l' hl' => h l' (List.mem_cons_of_mem _ hl'), List.cons_append]

/-- Lines come back from the text made of them. -/
theorem lines_unlines {ls : List Text} (h : ∀ l ∈ ls, '\n' ∉ l) : lines (unlines ls) = ls := by
  unfold lines
  rw [splitOnP_unlines h, if_pos (by simp), List.dropLast_concat]

/-! ## Reading numbers -/

theorem leadingNat_decimal (n : Nat) {t : Text} (ht : ∀ c, t.head? = some c → c.isDigit = false) :
    leadingNat (decimal n ++ t) = n := by
  have hdigits : ∀ c ∈ decimal n, c.isDigit = true := fun c hc => isDigit_of_mem_decimal hc
  have hrest : t.takeWhile Char.isDigit = [] := by
    cases t with
    | nil => rfl
    | cons c t => rw [List.takeWhile_cons, ht c rfl]; rfl
  rw [leadingNat, List.takeWhile_append_of_pos hdigits, hrest, List.append_nil]
  exact Nat.ofDigitChars_ten_toDigits

/-- `sort -n` reads the number at the start of a line. -/
theorem leadingInt_decimalInt (i : Int) (t : Text) : leadingInt (decimalInt i ++ ' ' :: t) = i := by
  have hspace : ∀ c, (' ' :: t).head? = some c → c.isDigit = false := by
    intro c hc
    rw [List.head?_cons, Option.some.injEq] at hc
    subst hc
    rfl
  cases i with
  | ofNat n =>
    have hvalue := leadingNat_decimal n hspace
    obtain ⟨c, ds, hc, hdigit⟩ := decimal_head n
    have hsign := decimal_ne_sign n
    show leadingInt (decimal n ++ ' ' :: t) = _
    rw [hc] at hvalue hsign ⊢
    -- the first digit is neither a blank nor a sign
    have hblank : (decide (c = ' ') || decide (c = '\t')) = false := by
      rw [Bool.or_eq_false_iff, decide_eq_false_iff_not, decide_eq_false_iff_not]
      constructor <;> rintro rfl <;> exact absurd hdigit (by decide)
    rw [leadingInt, List.cons_append, List.dropWhile_cons_of_neg (by simp [hblank])]
    split
    next ds' heq =>
      rw [List.cons.injEq] at heq
      exact absurd (congrArg (· :: ds) heq.1) (hsign ds)
    next => rw [← List.cons_append, hvalue]; rfl
  | negSucc n =>
    have hvalue := leadingNat_decimal (n + 1) hspace
    show -(leadingNat (decimal (n + 1) ++ ' ' :: t) : Int) = _
    rw [hvalue]
    rfl

theorem digits_decimal (n : Nat) : digits (decimal n) = some n := by
  have hvalue := leadingNat_decimal n (t := []) (fun c hc => absurd hc (by simp))
  rw [List.append_nil] at hvalue
  have hdigits : (decimal n).all Char.isDigit = true := by
    rw [List.all_eq_true]
    exact fun c hc => isDigit_of_mem_decimal hc
  rw [digits, if_pos ⟨Nat.toDigits_ne_nil, hdigits⟩, hvalue]

theorem signedDigits_decimal (n : Nat) : signedDigits (decimal n) = some (n : Int) := by
  have hvalue := digits_decimal n
  obtain ⟨c, ds, hc, hdigit⟩ := decimal_head n
  rw [hc] at hvalue ⊢
  unfold signedDigits
  split
  next heq => cases heq; exact absurd hdigit (by decide)
  next heq => cases heq; exact absurd hdigit (by decide)
  next => rw [hvalue]; rfl

/-- `[` reads a number that it can hold. -/
theorem testOperand_decimal {n : Nat} (hn : n < 2 ^ 63) :
    testOperand (decimal n) = some (n : Int) := by
  have hrange : (decide (-9223372036854775808 ≤ (n : Int))
      && decide ((n : Int) < 9223372036854775808)) = true := by
    rw [Bool.and_eq_true, decide_eq_true_eq, decide_eq_true_eq]
    omega
  rw [testOperand, signedDigits_decimal, Option.filter_some, if_pos hrange]

/-- The shell compares two numbers as numbers. -/
theorem testInt_decimal (op : Int → Int → Bool) {n m : Nat} (hn : n < 2 ^ 63) (hm : m < 2 ^ 63) :
    testInt op (decimal n) (decimal m) = op n m := by
  rw [testInt, words_singleton (isWord_decimal n), words_singleton (isWord_decimal m)]
  simp only [testOperand_decimal hn, testOperand_decimal hm]

/-! ## The last line by number -/

theorem sortLines_perm (ls : List Text) : (sortLines ls).Perm ls := by
  have h := (ascending_perm (ls.map fun l => toLex (leadingInt l, l))).map fun k => (ofLex k).2
  rw [List.map_map] at h
  show (sortLines ls).Perm ls
  exact h.trans (List.Perm.of_eq (List.map_id ls))

/-- The numbers of the sorted lines ascend. -/
theorem sortLines_ascending (ls : List Text) :
    ((sortLines ls).map leadingInt).Pairwise (· ≤ ·) := by
  rw [sortLines, List.map_map, List.pairwise_map]
  refine (sorted_lessOf_iff.mp (ascending_sorted _)).imp_of_mem ?_
  intro k k' hk hk' hle
  obtain ⟨l, -, rfl⟩ := List.mem_map.mp ((ascending_perm _).mem_iff.mp hk)
  obtain ⟨l', -, rfl⟩ := List.mem_map.mp ((ascending_perm _).mem_iff.mp hk')
  show leadingInt l ≤ leadingInt l'
  rcases Prod.Lex.toLex_le_toLex.mp hle with hlt | heq
  · exact le_of_lt hlt
  · exact le_of_eq heq.1

/-- The last of the sorted lines is one whose number no other exceeds. -/
theorem sortLines_getLast? {ls : List Text} {l : Text} (h : (sortLines ls).getLast? = some l) :
    l ∈ ls ∧ ∀ l' ∈ ls, leadingInt l' ≤ leadingInt l := by
  rw [sortLines, List.getLast?_map, Option.map_eq_some_iff] at h
  obtain ⟨k, hk, rfl⟩ := h
  obtain ⟨hmem, hge⟩ := ascending_getLast?_eq_some.mp hk
  obtain ⟨l, hl, rfl⟩ := List.mem_map.mp hmem
  refine ⟨hl, ?_⟩
  intro l' hl'
  have hle := hge _ (List.mem_map_of_mem hl')
  rcases Prod.Lex.toLex_le_toLex.mp hle with hlt | heq
  · exact le_of_lt hlt
  · exact le_of_eq heq.1

/-- Sorting keeps the lines. -/
theorem lines_sortN {ls : List Text} (h : ∀ l ∈ ls, '\n' ∉ l) :
    lines (sortN (unlines ls)) = sortLines ls := by
  rw [sortN, lines_unlines h]
  exact lines_unlines fun l hl => h l ((sortLines_perm ls).mem_iff.mp hl)

/-- Of a text without lines nothing is left. -/
theorem tailN1_sortN_nil : tailN1 (sortN (unlines [])) = [] := by
  rw [tailN1, lines_sortN (by simp), List.eq_nil_of_length_eq_zero (sortLines_perm []).length_eq]
  rfl

/-- After `sort -n`, the last line is one whose number no other exceeds. -/
theorem tailN1_sortN {ls : List Text} (h : ∀ l ∈ ls, '\n' ∉ l) (hne : ls ≠ []) :
    ∃ l ∈ ls, (∀ l' ∈ ls, leadingInt l' ≤ leadingInt l) ∧
      tailN1 (sortN (unlines ls)) = unlines [l] := by
  rw [tailN1, lines_sortN h]
  cases hl : (sortLines ls).getLast? with
  | none =>
    rw [List.getLast?_eq_none_iff] at hl
    have hlen := (sortLines_perm ls).length_eq
    rw [hl] at hlen
    exact absurd (List.length_eq_zero_iff.mp hlen.symm) hne
  | some l =>
    obtain ⟨hmem, hge⟩ := sortLines_getLast? hl
    exact ⟨l, hmem, hge, by simp [unlines]⟩

/-- A field of the only line of a text, as a command substitution takes it. -/
theorem substitute_awkPrint (k : Nat) {l w : Text} (hl : '\n' ∉ l)
    (hw : (words l)[k - 1]? = some w) (hword : '\n' ∉ w) :
    substitute (awkPrint k (unlines [l])) = w := by
  rw [awkPrint, lines_unlines (by simpa using hl)]
  simp only [List.map_cons, List.map_nil, hw, Option.getD_some, unlines, List.flatMap_cons,
    List.flatMap_nil, List.append_nil]
  exact substitute_newline hword

end Satf.Lib.Shell
