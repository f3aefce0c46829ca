import Mathlib.Data.List.DropRight

/-!
# Texts as a shell passes them on

The parts of a shell that rewrite a text between two variables: splitting an
unquoted expansion into words, `echo`, command substitution, and the removal
of a suffix. Texts are lists of characters.

A text made of words with one space between them is `Tight`. It comes through
an unquoted `echo` unchanged:

> `substitute_echo_words`: substituting `echo $t` for a tight `t` gives `t`.
-/

namespace Satf.Lib.Shell

abbrev Text := List Char

/-- The separators of word splitting: space, tab, newline. -/
def isBlank (c : Char) : Bool := c = ' ' || c = '\t' || c = '\n'

/-- The words of an unquoted expansion. -/
def words (t : Text) : List Text := (t.splitOnP isBlank).filter fun w => !w.isEmpty

/-- What `echo` prints: its arguments with a space in between, and a newline. -/
def echo (args : List Text) : Text := [' '].intercalate args ++ ['\n']

/-- What a command substitution leaves of an output. -/
def substitute (out : Text) : Text := out.rdropWhile (· = '\n')

/-- `${t/%suffix/}`, for a suffix without pattern characters. -/
def removeSuffix (suffix t : Text) : Text := (t.dropSuffix? suffix).getD t

/-! ## Tight texts -/

/-- No blank in the text. -/
def noBlank (t : Text) : Bool := t.all fun c => !isBlank c

/-- A single word. -/
def isWord (w : Text) : Bool := !w.isEmpty && noBlank w

/-- Words with one space between them. -/
inductive Tight : Text → Prop where
  | word (w : Text) (hw : isWord w = true) : Tight w
  | more (w : Text) (hw : isWord w = true) (t : Text) : Tight t → Tight (w ++ ' ' :: t)

theorem isWord_iff {w : Text} :
    isWord w = true ↔ w ≠ [] ∧ ∀ c ∈ w, isBlank c = false := by
  unfold isWord noBlank
  simp

@[simp] theorem noBlank_append (t u : Text) : noBlank (t ++ u) = (noBlank t && noBlank u) :=
  List.all_append

/-- A word and a separator at the start are split off. -/
theorem words_cons {w : Text} (hw : isWord w = true) {c : Char} (hc : isBlank c = true)
    (t : Text) : words (w ++ c :: t) = w :: words t := by
  obtain ⟨hne, hblank⟩ := isWord_iff.mp hw
  rw [words, List.splitOnP_append_cons_of_forall_mem hblank c hc]
  simp [hne, words]

theorem words_singleton {w : Text} (hw : isWord w = true) : words w = [w] := by
  obtain ⟨hne, hblank⟩ := isWord_iff.mp hw
  rw [words, List.splitOnP_eq_singleton hblank]
  simp [hne]

/-- Two words without a space are one. -/
theorem isWord_append {w v : Text} (hw : isWord w = true) (hv : isWord v = true) :
    isWord (w ++ v) = true := by
  unfold isWord at hw hv ⊢
  rw [Bool.and_eq_true] at hw hv
  rw [noBlank_append, hw.2, hv.2]
  cases w with
  | nil => exact absurd hw.1 (by simp)
  | cons c w => rfl

theorem Tight.ne_nil {t : Text} (h : Tight t) : t ≠ [] := by
  cases h with
  | word w hw => exact (isWord_iff.mp hw).1
  | more w hw t ht => simp

/-- Side by side, the last word of one text and the first of the next become
one word. -/
theorem Tight.append {t u : Text} (ht : Tight t) (hu : Tight u) : Tight (t ++ u) := by
  induction ht with
  | word w hw =>
    cases hu with
    | word v hv => exact .word _ (isWord_append hw hv)
    | more v hv s hs =>
      rw [← List.append_assoc]
      exact .more _ (isWord_append hw hv) s hs
  | more w hw s _ ih =>
    rw [List.append_assoc, List.cons_append]
    exact .more w hw _ ih

/-- With a space in between they stay apart. -/
theorem Tight.spaced {t u : Text} (ht : Tight t) (hu : Tight u) : Tight (t ++ ' ' :: u) := by
  induction ht with
  | word w hw => exact .more w hw u hu
  | more w hw s _ ih =>
    rw [List.append_assoc, List.cons_append]
    exact .more w hw _ ih

/-- A tight text is what its words look like with spaces in between. -/
theorem Tight.intercalate_words {t : Text} (h : Tight t) : [' '].intercalate (words t) = t := by
  induction h with
  | word w hw => rw [words_singleton hw, List.intercalate_singleton]
  | more w hw t ht ih =>
    have hsplit : words (w ++ ' ' :: t) = w :: words t := words_cons hw rfl t
    have hwords : words t ≠ [] := by
      intro hnil
      rw [hnil] at ih
      exact ht.ne_nil ih.symm
    rw [hsplit, List.intercalate_cons_of_ne_nil hwords, ih, List.append_assoc]
    rfl

theorem Tight.not_newline {t : Text} (h : Tight t) : '\n' ∉ t := by
  have hword : ∀ {w}, isWord w = true → '\n' ∉ w := by
    intro w hw hmem
    cases (isWord_iff.mp hw).2 _ hmem
  induction h with
  | word w hw => exact hword hw
  | more w hw t _ ih =>
    rw [List.mem_append, List.mem_cons]
    intro hmem
    rcases hmem with h | h | h
    · exact hword hw h
    · cases h
    · exact ih h

/-! ## Coming through unchanged -/

theorem substitute_newline {t : Text} (h : '\n' ∉ t) : substitute (t ++ ['\n']) = t := by
  rw [substitute, List.rdropWhile_concat_pos _ _ _ rfl, List.rdropWhile_eq_self_iff]
  intro hne hlast
  rw [decide_eq_true_eq] at hlast
  exact h (hlast ▸ List.getLast_mem hne)

/-- A text in one line, echoed as one argument. -/
theorem substitute_echo_singleton {t : Text} (h : '\n' ∉ t) : substitute (echo [t]) = t := by
  rw [echo, List.intercalate_singleton, substitute_newline h]

/-- A tight text, echoed unquoted. -/
theorem substitute_echo_words {t : Text} (h : Tight t) : substitute (echo (words t)) = t := by
  rw [echo, h.intercalate_words, substitute_newline h.not_newline]

theorem removeSuffix_append (t suffix : Text) : removeSuffix suffix (t ++ suffix) = t := by
  have h : (t ++ suffix).dropSuffix? suffix = some t :=
    List.dropSuffix?_eq_some_iff.mpr ⟨suffix, rfl, beq_self_eq_true suffix⟩
  rw [removeSuffix, h, Option.getD_some]

/-- Separators after every text are separators between them and one more. -/
theorem flatMap_append_separator (separator : Text) :
    ∀ ts : List Text, ts ≠ [] →
      ts.flatMap (· ++ separator) = separator.intercalate ts ++ separator := by
  intro ts
  induction ts with
  | nil => exact fun h => absurd rfl h
  | cons t ts ih =>
    intro _
    cases ts with
    | nil => simp
    | cons u us =>
      rw [List.flatMap_cons, ih (by simp), List.intercalate_cons_cons]
      simp only [List.append_assoc]

end Satf.Lib.Shell
