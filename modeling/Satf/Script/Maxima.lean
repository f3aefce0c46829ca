import Satf.Lib.TextTools
import Satf.Measure.Task

/-!
# The maxima for the y ranges

Before it plots, `satf.sh` sorts every log file numerically, that is by size,
and looks for the largest time and the largest number of comparisons, to use
the same y range in all plots. From each sorted file it reads the last line
only, and says so:

    # Reasonably assume that the computation time of the last entry
    # is always the maximum. This is right as long as computation time
    # of an algorithm increases with the size of the processed data :-)

An empty file has no last line. Then `[ -gt 0 ]` is an error, and the maxima
stay as they are.

> `overallMaxima_are_of_largest`: each of the two is the largest value among
> the lines of largest size, raised from 0 to 1. All lines are within it exactly
> when no line exceeds all of those (and 1).
-/

namespace Satf.Script

open Satf.Lib Satf.Lib.Shell Satf.Measure

/-! ## The loop -/

/-- The two variables. -/
structure Maxima where
  overallMaxTime : Text
  overallMaxComparisons : Text
  deriving DecidableEq

/-- ``MAX=`tail -n1 $FILE | awk '{print $k}'` ``, on a sorted file. -/
def lastField (k : Nat) (sorted : Text) : Text := substitute (awkPrint k (tailN1 sorted))

/-- `if [ $MAX -gt $OVERALL_MAX ]; then OVERALL_MAX=$MAX; fi` -/
def raiseTo (max overallMax : Text) : Text :=
  if testInt (· > ·) max overallMax then max else overallMax

/-- The body of the inner loop: the maxima, and the file after `sort -n -o`. -/
def sortAndRaise (m : Maxima) (content : Text) : Maxima × Text :=
  let sorted := sortN content
  ({ overallMaxTime := raiseTo (lastField 2 sorted) m.overallMaxTime
     overallMaxComparisons := raiseTo (lastField 3 sorted) m.overallMaxComparisons }, sorted)

/-- The inner loop, over the files of a directory. -/
def overFiles : Maxima → List Text → Maxima × List Text
  | m, [] => (m, [])
  | m, content :: rest =>
    let (m, sorted) := sortAndRaise m content
    let (m, sortedRest) := overFiles m rest
    (m, sorted :: sortedRest)

/-- The outer loop. -/
def overDirectories : Maxima → List (List Text) → Maxima × List (List Text)
  | m, [] => (m, [])
  | m, files :: rest =>
    let (m, sorted) := overFiles m files
    let (m, sortedRest) := overDirectories m rest
    (m, sorted :: sortedRest)

/-- `if [ $OVERALL_MAX -eq 0 ]; then OVERALL_MAX=1; fi` -/
def atLeastOne (overallMax : Text) : Text :=
  if testInt (· = ·) overallMax ['0'] then ['1'] else overallMax

/-- From the contents of the log files, directory by directory: the maxima the
plots use, and the sorted files. -/
def overallMaxima (dirs : List (List Text)) : Maxima × List (List Text) :=
  let (m, sorted) := overDirectories ⟨['0'], ['0']⟩ dirs
  (⟨atLeastOne m.overallMaxTime, atLeastOne m.overallMaxComparisons⟩, sorted)

/-! ## Log files -/

/-- What a line of a log file says. -/
structure Entry where
  size : Int
  time : UInt32
  comparisons : UInt32
  deriving DecidableEq

/-- The line, without its line break. -/
def Entry.text (e : Entry) : Text :=
  decimalInt e.size ++ ' ' :: decimal e.time.toNat ++ ' ' :: decimal e.comparisons.toNat

/-- A log file, with a line at most for each size. -/
structure LogFile where
  entries : List Entry
  distinct : (entries.map Entry.size).Nodup

/-- The file as `log()` has written it. -/
def LogFile.content (f : LogFile) : Text :=
  f.entries.flatMap fun e => logLine e.size e.time e.comparisons

/-- The entry has the largest size in the file. -/
def LogFile.IsLargest (f : LogFile) (e : Entry) : Prop :=
  e ∈ f.entries ∧ ∀ e' ∈ f.entries, e'.size ≤ e.size

/-- The two measured columns. -/
inductive Column where
  | time
  | comparisons

/-- The column as `awk` counts. -/
def Column.number : Column → Nat
  | .time => 2
  | .comparisons => 3

def Column.value : Column → Entry → UInt32
  | .time => Entry.time
  | .comparisons => Entry.comparisons

/-! ## What the tools make of a log file -/

theorem Entry.text_words (e : Entry) :
    words e.text = [decimalInt e.size, decimal e.time.toNat, decimal e.comparisons.toNat] :=
  words_three (isWord_decimalInt _) (isWord_decimal _) (isWord_decimal _)

theorem Entry.text_leadingInt (e : Entry) : leadingInt e.text = e.size := by
  unfold Entry.text
  rw [List.append_assoc, List.cons_append]
  exact leadingInt_decimalInt _ _

theorem Entry.text_not_newline (e : Entry) : '\n' ∉ e.text := by
  obtain ⟨body, hbody, hnot⟩ := logLine_one_break e.size e.time e.comparisons
  have heq : e.text = body := List.append_cancel_right hbody
  rw [heq]
  exact hnot

theorem LogFile.content_eq (f : LogFile) : f.content = unlines (f.entries.map Entry.text) := by
  unfold LogFile.content unlines
  rw [List.flatMap_map]
  rfl

/-- No line break inside the lines of a log file. -/
theorem LogFile.texts_not_newline (f : LogFile) : ∀ l ∈ f.entries.map Entry.text, '\n' ∉ l := by
  intro l hl
  obtain ⟨e, -, rfl⟩ := List.mem_map.mp hl
  exact e.text_not_newline

/-- The field of a column in the line of an entry. -/
theorem Column.field_text (col : Column) (e : Entry) :
    (words e.text)[col.number - 1]? = some (decimal (col.value e).toNat) := by
  rw [e.text_words]
  cases col <;> rfl

theorem decimal_not_newline (n : Nat) : '\n' ∉ decimal n := by
  intro h
  exact absurd (isDigit_of_mem_decimal h) (by decide)

/-- What the script reads from a sorted log file: nothing from an empty one,
and else the value of the entry of largest size. -/
theorem lastField_content (col : Column) (f : LogFile) :
    (f.entries = [] ∧ lastField col.number (sortN f.content) = []) ∨
    ∃ e, f.IsLargest e ∧
      lastField col.number (sortN f.content) = decimal (col.value e).toNat := by
  rw [f.content_eq]
  by_cases hne : f.entries.map Entry.text = []
  · left
    refine ⟨List.map_eq_nil_iff.mp hne, ?_⟩
    rw [hne, lastField, tailN1_sortN_nil]
    rfl
  · right
    obtain ⟨l, hl, hlargest, htail⟩ := tailN1_sortN f.texts_not_newline hne
    obtain ⟨e, he, rfl⟩ := List.mem_map.mp hl
    refine ⟨e, ⟨he, ?_⟩, ?_⟩
    · intro e' he'
      have hle := hlargest e'.text (List.mem_map_of_mem he')
      rw [e.text_leadingInt, e'.text_leadingInt] at hle
      exact hle
    · rw [lastField, htail]
      exact substitute_awkPrint col.number e.text_not_newline (col.field_text e)
        (decimal_not_newline _)

/-! ## The invariant of the loop -/

/-- After these files, `v` is the largest value of a column among the entries
of largest size, or 0. -/
structure Tracks (col : Column) (seen : List LogFile) (v : Nat) : Prop where
  bound : ∀ f ∈ seen, ∀ e, f.IsLargest e → (col.value e).toNat ≤ v
  attained : v = 0 ∨ ∃ f ∈ seen, ∃ e, f.IsLargest e ∧ (col.value e).toNat = v

theorem Tracks.init (col : Column) : Tracks col [] 0 where
  bound _ hf := absurd hf List.not_mem_nil
  attained := .inl rfl

/-- An `unsigned int` is not too large for the shell. -/
theorem Tracks.lt {col : Column} {seen : List LogFile} {v : Nat} (h : Tracks col seen v) :
    v < 2 ^ 63 := by
  rcases h.attained with hzero | ⟨f, hf, e, he, hv⟩
  · omega
  · have hlt := (col.value e).toNat_lt
    omega

theorem raiseTo_nil {v : Nat} : raiseTo [] (decimal v) = decimal v := by
  rw [raiseTo, testInt, words_singleton (isWord_decimal v)]
  rfl

theorem raiseTo_decimal {w v : Nat} (hw : w < 2 ^ 63) (hv : v < 2 ^ 63) :
    raiseTo (decimal w) (decimal v) = decimal (max v w) := by
  rw [raiseTo, testInt_decimal _ hw hv]
  by_cases hgt : v < w
  · rw [if_pos (by simpa using hgt), Nat.max_eq_right (Nat.le_of_lt hgt)]
  · rw [if_neg (by simpa using hgt), Nat.max_eq_left (Nat.not_lt.mp hgt)]

/-- The largest sizes of a file belong to one entry. -/
theorem LogFile.IsLargest.unique {f : LogFile} {e e' : Entry} (h : f.IsLargest e)
    (h' : f.IsLargest e') : e = e' := by
  have hsize : e.size = e'.size := le_antisymm (h'.2 e h.1) (h.2 e' h'.1)
  exact List.inj_on_of_nodup_map f.distinct h.1 h'.1 hsize

/-- One file: the variable of a column follows. -/
theorem Tracks.file {col : Column} {seen : List LogFile} {v : Nat} (h : Tracks col seen v)
    (f : LogFile) :
    ∃ v', raiseTo (lastField col.number (sortN f.content)) (decimal v) = decimal v' ∧
      Tracks col (seen ++ [f]) v' := by
  rcases lastField_content col f with ⟨hnil, hfield⟩ | ⟨e, he, hfield⟩
  · -- an empty file has no entry of largest size
    refine ⟨v, by rw [hfield, raiseTo_nil], ?_, ?_⟩
    · intro g hg e he
      rcases List.mem_append.mp hg with hold | hnew
      · exact h.bound g hold e he
      · rw [List.mem_singleton.mp hnew] at he
        exact absurd he.1 (by rw [hnil]; exact List.not_mem_nil)
    · rcases h.attained with hzero | ⟨g, hg, e, he, hv⟩
      · exact .inl hzero
      · exact .inr ⟨g, List.mem_append_left _ hg, e, he, hv⟩
  · have hlt := (col.value e).toNat_lt
    refine ⟨max v (col.value e).toNat, by rw [hfield, raiseTo_decimal (by omega) h.lt], ?_, ?_⟩
    · intro g hg e' he'
      rcases List.mem_append.mp hg with hold | hnew
      · exact Nat.le_trans (h.bound g hold e' he') (Nat.le_max_left _ _)
      · rw [List.mem_singleton.mp hnew] at he'
        rw [he'.unique he]
        exact Nat.le_max_right _ _
    · rcases Nat.le_total v (col.value e).toNat with hle | hle
      · rw [Nat.max_eq_right hle]
        exact .inr ⟨f, List.mem_append_right _ (List.mem_singleton_self f), e, he, rfl⟩
      · rw [Nat.max_eq_left hle]
        rcases h.attained with hzero | ⟨g, hg, e', he', hv⟩
        · exact .inl hzero
        · exact .inr ⟨g, List.mem_append_left _ hg, e', he', hv⟩

/-- Both variables follow the files. -/
structure Follows (seen : List LogFile) (m : Maxima) : Prop where
  time : ∃ v, m.overallMaxTime = decimal v ∧ Tracks .time seen v
  comparisons : ∃ v, m.overallMaxComparisons = decimal v ∧ Tracks .comparisons seen v

theorem Follows.init : Follows [] ⟨['0'], ['0']⟩ where
  time := ⟨0, rfl, Tracks.init _⟩
  comparisons := ⟨0, rfl, Tracks.init _⟩

/-- The body of the inner loop treats both columns alike. -/
theorem sortAndRaise_maxima (m : Maxima) (content : Text) :
    (sortAndRaise m content).1
      = ⟨raiseTo (lastField Column.time.number (sortN content)) m.overallMaxTime,
        raiseTo (lastField Column.comparisons.number (sortN content)) m.overallMaxComparisons⟩ := rfl

/-- One pass through the body of the inner loop. -/
theorem Follows.file {seen : List LogFile} {m : Maxima} (h : Follows seen m) (f : LogFile) :
    Follows (seen ++ [f]) (sortAndRaise m f.content).1 := by
  obtain ⟨v, hv, htime⟩ := h.time
  obtain ⟨c, hc, hcomparisons⟩ := h.comparisons
  obtain ⟨v', hv', htime'⟩ := htime.file f
  obtain ⟨c', hc', hcomparisons'⟩ := hcomparisons.file f
  rw [sortAndRaise_maxima, hv, hc, hv', hc']
  exact ⟨⟨v', rfl, htime'⟩, ⟨c', rfl, hcomparisons'⟩⟩

/-- One pass through the inner loop, and the rest of it. -/
theorem overFiles_cons (m : Maxima) (content : Text) (rest : List Text) :
    overFiles m (content :: rest) = ((overFiles (sortAndRaise m content).1 rest).1,
      sortN content :: (overFiles (sortAndRaise m content).1 rest).2) := rfl

/-- The inner loop. -/
theorem Follows.files (files : List LogFile) :
    ∀ (seen : List LogFile) (m : Maxima), Follows seen m →
      Follows (seen ++ files) (overFiles m (files.map LogFile.content)).1 := by
  induction files with
  | nil =>
    intro seen m h
    rw [List.append_nil]
    exact h
  | cons f files ih =>
    intro seen m h
    have hrest := ih _ _ (h.file f)
    rw [List.append_assoc, List.singleton_append] at hrest
    rw [List.map_cons, overFiles_cons]
    exact hrest

/-- The outer loop. -/
theorem Follows.directories (dirs : List (List LogFile)) :
    ∀ (seen : List LogFile) (m : Maxima), Follows seen m →
      Follows (seen ++ dirs.flatten)
        (overDirectories m (dirs.map fun files => files.map LogFile.content)).1 := by
  induction dirs with
  | nil =>
    intro seen m h
    rw [List.flatten_nil, List.append_nil]
    exact h
  | cons files dirs ih =>
    intro seen m h
    have hrest := ih _ _ (Follows.files files seen m h)
    rw [List.append_assoc] at hrest
    exact hrest

/-! ## The maxima -/

/-- What the maximum of a column is worth: at least the value of the largest
size in every file, and attained there unless it was raised from 0 to 1. It
covers the files in which no value exceeds that of the largest size, and all
lines of all files exactly when none exceeds both 1 and every such value. -/
structure MaximumOfLargest (col : Column) (files : List LogFile) (v : Nat) : Prop where
  bound : ∀ f ∈ files, ∀ e, f.IsLargest e → (col.value e).toNat ≤ v
  positive : 1 ≤ v
  attained : (∃ f ∈ files, ∃ e, f.IsLargest e ∧ (col.value e).toNat = v) ∨
    (v = 1 ∧ ∀ f ∈ files, ∀ e, f.IsLargest e → (col.value e).toNat = 0)
  covers_increasing : ∀ f ∈ files,
    (∀ e, f.IsLargest e → ∀ e' ∈ f.entries, (col.value e').toNat ≤ (col.value e).toNat) →
    ∀ e ∈ f.entries, (col.value e).toNat ≤ v
  covers_all_iff : (∀ f ∈ files, ∀ e ∈ f.entries, (col.value e).toNat ≤ v) ↔
    ∀ f ∈ files, ∀ e ∈ f.entries, (col.value e).toNat ≤ 1 ∨
      ∃ g ∈ files, ∃ e', g.IsLargest e' ∧ (col.value e).toNat ≤ (col.value e').toNat

/-- A file that is not empty has an entry of largest size. -/
theorem LogFile.exists_isLargest {f : LogFile} {e : Entry} (he : e ∈ f.entries) :
    ∃ e', f.IsLargest e' := by
  rcases lastField_content .time f with ⟨hnil, -⟩ | ⟨e', he', -⟩
  · exact absurd he (by rw [hnil]; exact List.not_mem_nil)
  · exact ⟨e', he'⟩

theorem atLeastOne_decimal {v : Nat} (hv : v < 2 ^ 63) :
    atLeastOne (decimal v) = decimal (max v 1) := by
  rw [atLeastOne, show ['0'] = decimal 0 from rfl, testInt_decimal _ hv (by decide)]
  by_cases hzero : v = 0
  · rw [hzero]
    rfl
  · rw [if_neg (by simpa using hzero), Nat.max_eq_left (by omega)]

theorem Tracks.atLeastOne {col : Column} {files : List LogFile} {v : Nat}
    (h : Tracks col files v) : MaximumOfLargest col files (max v 1) := by
  have hbound : ∀ f ∈ files, ∀ e, f.IsLargest e → (col.value e).toNat ≤ max v 1 := by
    intro f hf e he
    have := h.bound f hf e he
    omega
  refine ⟨hbound, Nat.le_max_right _ _, ?_, ?_, ?_⟩
  · by_cases hzero : v = 0
    · refine .inr ⟨by omega, ?_⟩
      intro f hf e he
      have := h.bound f hf e he
      omega
    · rw [Nat.max_eq_left (by omega)]
      exact .inl (h.attained.resolve_left hzero)
  · intro f hf hincreasing e he
    obtain ⟨e', he'⟩ := LogFile.exists_isLargest he
    exact Nat.le_trans (hincreasing e' he' e he) (hbound f hf e' he')
  · constructor
    · intro hall f hf e he
      have hle := hall f hf e he
      by_cases hone : (col.value e).toNat ≤ 1
      · exact .inl hone
      · rcases h.attained with hzero | ⟨g, hg, e', he', hv⟩
        · omega
        · exact .inr ⟨g, hg, e', he', by omega⟩
    · intro hall f hf e he
      rcases hall f hf e he with hone | ⟨g, hg, e', he', hle⟩
      · omega
      · exact Nat.le_trans hle (hbound g hg e' he')

/-- The two variables after both loops and the two tests behind them. -/
theorem overallMaxima_eq (dirs : List (List LogFile)) :
    ∃ v w, (overallMaxima (dirs.map fun files => files.map LogFile.content)).1
        = ⟨decimal (max v 1), decimal (max w 1)⟩ ∧
      Tracks .time dirs.flatten v ∧ Tracks .comparisons dirs.flatten w := by
  have h := Follows.directories dirs [] _ Follows.init
  rw [List.nil_append] at h
  obtain ⟨v, hv, htime⟩ := h.time
  obtain ⟨w, hw, hcomparisons⟩ := h.comparisons
  refine ⟨v, w, ?_, htime, hcomparisons⟩
  rw [← atLeastOne_decimal htime.lt, ← atLeastOne_decimal hcomparisons.lt, ← hv, ← hw]
  rfl

/-- **The maxima are those of the largest sizes.** For all log directories and
files, empty ones included, with arbitrary times and comparison counts. -/
theorem overallMaxima_are_of_largest (dirs : List (List LogFile)) :
    ∃ t c, (overallMaxima (dirs.map fun files => files.map LogFile.content)).1
        = ⟨decimal t, decimal c⟩ ∧
      MaximumOfLargest .time dirs.flatten t ∧ MaximumOfLargest .comparisons dirs.flatten c := by
  obtain ⟨v, w, hmaxima, htime, hcomparisons⟩ := overallMaxima_eq dirs
  exact ⟨max v 1, max w 1, hmaxima, htime.atLeastOne, hcomparisons.atLeastOne⟩

/-- Two sizes, of which the smaller took longer and more comparisons. -/
def slowStart : LogFile where
  entries := [⟨1, 10, 9⟩, ⟨2, 5, 4⟩]
  distinct := by decide

/-- Its second line is the one of largest size. -/
theorem slowStart_isLargest : slowStart.IsLargest ⟨2, 5, 4⟩ := by
  refine ⟨by decide, ?_⟩
  decide

theorem Tracks.slowStart {col : Column} {v : Nat} (h : Tracks col [[slowStart]].flatten v) :
    v = (col.value ⟨2, 5, 4⟩).toNat := by
  have hbound := h.bound _ (List.mem_singleton_self _) _ slowStart_isLargest
  rcases h.attained with hzero | ⟨f, hf, e, he, hv⟩
  · rw [hzero] at hbound
    cases col <;> exact absurd hbound (by decide)
  · have hfile : f = Script.slowStart := List.mem_singleton.mp hf
    subst hfile
    rw [← hv, he.unique slowStart_isLargest]

/-- On this file the maxima are 5 and 4, and its first line says 10 and 9. -/
theorem overallMaxima_slow_start :
    (overallMaxima [[slowStart.content]]).1 = ⟨decimal 5, decimal 4⟩ ∧
      ∃ e ∈ slowStart.entries, 5 < e.time.toNat ∧ 4 < e.comparisons.toNat := by
  obtain ⟨v, w, hmaxima, htime, hcomparisons⟩ := overallMaxima_eq [[slowStart]]
  have htime' : max v 1 = 5 := by rw [htime.slowStart]; rfl
  have hcomparisons' : max w 1 = 4 := by rw [hcomparisons.slowStart]; rfl
  rw [htime', hcomparisons'] at hmaxima
  exact ⟨hmaxima, ⟨1, 10, 9⟩, by decide, by decide, by decide⟩

end Satf.Script
