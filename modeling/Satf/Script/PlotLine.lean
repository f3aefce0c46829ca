import Satf.Lib.Shell
import Satf.Measure.Task
import Mathlib.Data.List.Infix

/-!
# The combined plot lines of `satf.sh`

`satf.sh` builds the arguments of gnuplot's `plot` for its two combined plots
in two variables. Over the directories of the last log directory, and over the
files of each, it appends a clause and `, ` to both; after the files of a
directory it removes the last `, ` and hands the variables to gnuplot. Both are
set to the empty text once, before the outer loop.

> `plotLines_are_per_directory_iff`: what gnuplot gets is, at every directory,
> the comma-separated clauses of its own files if and only if there is at most
> one directory.

From the second directory on, a line starts with all earlier ones
(`handed_eq`), and no separator stands where they meet.
-/

namespace Satf.Script

open Satf.Lib Satf.Lib.Shell Satf.Measure

/-! ## Names -/

/-- A character that neither separates words nor starts a pattern or an
escape. -/
def isPlain (c : Char) : Bool := !isBlank c && c ≠ '\\' && c ≠ '*' && c ≠ '?' && c ≠ '['

/-- A name the shell passes on as it is. -/
structure Name where
  text : Text
  nonempty : text ≠ []
  plain : text.all isPlain = true

/-- A directory of the last log directory, with the files `ls` lists in it. -/
structure Directory where
  name : Name
  files : List Name
  nonempty : files ≠ []

/-- `data_names[j]` as the script finds it. -/
def dataSetName (d : DataSet) : Name where
  text := d.name.toList
  nonempty := by cases d <;> simp [DataSet.name]
  plain := by cases d <;> rfl

/-- The file name of an algorithm. -/
def algorithmName (a : Algorithm) : Name where
  text := a.logName.toList
  nonempty := by cases a <;> simp [Algorithm.logName]
  plain := by cases a <;> rfl

/-! ## The two loops -/

/-- `'$LAST_LOG_DIR/$DIR/$FILE' using <columns> title "$FILE" with lines` -/
def clause (columns : Text) (lastLogDir dir file : Name) : Text :=
  ("'".toList ++ lastLogDir.text ++ "/".toList ++ dir.text ++ "/".toList ++ file.text ++ "'".toList)
    ++ " using ".toList ++ columns ++ " title ".toList
    ++ ("\"".toList ++ file.text ++ "\"".toList) ++ " with lines".toList

/-- The columns of the time plot and of the comparisons plot. -/
def timeColumns : Text := "1:2".toList
def comparisonsColumns : Text := "1:3".toList

/-- The two variables. -/
structure PlotLines where
  allInOnePlotLineTime : Text
  allInOnePlotLineComparisons : Text
  deriving DecidableEq

/-- One of the two appends of the inner loop. A name has no backslash, so
`echo -e` prints what `echo` does. -/
def appendClause (columns : Text) (lastLogDir dir : Name) (line : Text) (file : Name) : Text :=
  line ++ substitute (echo [clause columns lastLogDir dir file ++ ", ".toList])

/-- The removal of the trailing separator: an unquoted ``echo ${line/%, /}``. -/
def stripLine (line : Text) : Text := substitute (echo (words (removeSuffix ", ".toList line)))

/-- The inner loop's body. -/
def perFile (lastLogDir dir : Name) (ls : PlotLines) (file : Name) : PlotLines where
  allInOnePlotLineTime := appendClause timeColumns lastLogDir dir ls.allInOnePlotLineTime file
  allInOnePlotLineComparisons :=
    appendClause comparisonsColumns lastLogDir dir ls.allInOnePlotLineComparisons file

/-- The outer loop's body up to the combined plots. -/
def perDirectory (lastLogDir : Name) (ls : PlotLines) (d : Directory) : PlotLines :=
  let ls := d.files.foldl (perFile lastLogDir d.name) ls
  { allInOnePlotLineTime := stripLine ls.allInOnePlotLineTime
    allInOnePlotLineComparisons := stripLine ls.allInOnePlotLineComparisons }

/-- The lines handed to gnuplot, one pair for each directory. The variables
keep their values from one directory to the next. -/
def handed (lastLogDir : Name) : PlotLines → List Directory → List PlotLines
  | _, [] => []
  | ls, d :: ds => perDirectory lastLogDir ls d :: handed lastLogDir (perDirectory lastLogDir ls d) ds

/-- The lines handed to gnuplot in a run of the script. -/
def plotLines (lastLogDir : Name) (dirs : List Directory) : List PlotLines :=
  handed lastLogDir ⟨[], []⟩ dirs

/-! ## What the lines are for -/

/-- One clause for each file of the directory, separated by commas. -/
def combined (columns : Text) (lastLogDir : Name) (d : Directory) : Text :=
  ", ".toList.intercalate (d.files.map (clause columns lastLogDir d.name))

/-- The lines of one directory. -/
def combinedLines (lastLogDir : Name) (d : Directory) : PlotLines where
  allInOnePlotLineTime := combined timeColumns lastLogDir d
  allInOnePlotLineComparisons := combined comparisonsColumns lastLogDir d

/-! ## Clauses are tight -/

/-- A name is a word, and stays one between what is written around it. -/
theorem Name.noBlank (n : Name) : noBlank n.text = true := by
  have h := n.plain
  unfold Shell.noBlank
  rw [List.all_eq_true] at h ⊢
  intro c hc
  -- not being a blank is the first of the five conditions
  have hplain := h c hc
  simp only [isPlain, Bool.and_eq_true] at hplain
  exact hplain.1.1.1.1

theorem clause_tight {columns : Text} (hc : columns = timeColumns ∨ columns = comparisonsColumns)
    (lastLogDir dir file : Name) : Tight (clause columns lastLogDir dir file) := by
  have hcolumns : Tight columns := by
    rcases hc with rfl | rfl
    · exact .word _ rfl
    · exact .word _ rfl
  have hpath : Tight ("'".toList ++ lastLogDir.text ++ "/".toList ++ dir.text ++ "/".toList
      ++ file.text ++ "'".toList) := by
    refine .word _ ?_
    unfold isWord
    simp only [noBlank_append, lastLogDir.noBlank, dir.noBlank, file.noBlank]
    rfl
  have htitle : Tight ("\"".toList ++ file.text ++ "\"".toList) := by
    refine .word _ ?_
    unfold isWord
    simp only [noBlank_append, file.noBlank]
    rfl
  have hwith : Tight "with lines".toList := .more "with".toList rfl _ (.word "lines".toList rfl)
  have husing : Tight "using".toList := .word _ rfl
  have hword : Tight "title".toList := .word _ rfl
  have h := hpath.spaced (husing.spaced (hcolumns.spaced (hword.spaced (htitle.spaced hwith))))
  have h₁ : " using ".toList = ' ' :: "using".toList ++ " ".toList := rfl
  have h₂ : " title ".toList = ' ' :: "title".toList ++ " ".toList := rfl
  have h₃ : " with lines".toList = ' ' :: "with lines".toList := rfl
  have h₄ : " ".toList = [' '] := rfl
  unfold clause
  rw [h₁, h₂, h₃, h₄]
  simpa only [List.append_assoc, List.cons_append, List.nil_append] using h

/-- Comma-separated tight texts are tight: the comma ends a word. -/
theorem intercalate_tight : ∀ ts : List Text, ts ≠ [] → (∀ t ∈ ts, Tight t) →
    Tight (", ".toList.intercalate ts) := by
  intro ts
  induction ts with
  | nil => exact fun h _ => absurd rfl h
  | cons t ts ih =>
    intro _ hall
    have ht := hall t List.mem_cons_self
    cases ts with
    | nil => rwa [List.intercalate_singleton]
    | cons u us =>
      have hrest := ih (by simp) (fun v hv => hall v (List.mem_cons_of_mem _ hv))
      have hcomma : Tight (t ++ ",".toList) := ht.append (.word _ rfl)
      rw [List.intercalate_cons_cons]
      have h := hcomma.spaced hrest
      simp only [List.append_assoc] at h ⊢
      exact h

/-! ## One directory -/

/-- What the variables can hold between directories. -/
def Settled (line : Text) : Prop := line = [] ∨ Tight line

theorem Settled.append {line t : Text} (h : Settled line) (ht : Tight t) : Tight (line ++ t) := by
  rcases h with rfl | h
  · exact ht
  · exact h.append ht

section Columns

variable {columns : Text} (hc : columns = timeColumns ∨ columns = comparisonsColumns)
include hc

theorem combined_tight (lastLogDir : Name) (d : Directory) :
    Tight (combined columns lastLogDir d) := by
  refine intercalate_tight _ (by simp [d.nonempty]) ?_
  intro t ht
  obtain ⟨file, -, rfl⟩ := List.mem_map.mp ht
  exact clause_tight hc lastLogDir d.name file

/-- The inner loop appends every clause with its separator. -/
theorem foldl_appendClause (lastLogDir dir : Name) :
    ∀ (files : List Name) (line : Text),
      files.foldl (appendClause columns lastLogDir dir) line
        = line ++ (files.map (clause columns lastLogDir dir)).flatMap (· ++ ", ".toList) := by
  intro files
  induction files with
  | nil => intro line; simp
  | cons file files ih =>
    intro line
    -- one line of output, so the substitution gives it back
    have hline : '\n' ∉ clause columns lastLogDir dir file ++ ", ".toList := by
      intro h
      rcases List.mem_append.mp h with h | h
      · exact (clause_tight hc lastLogDir dir file).not_newline h
      · exact absurd h (by simp)
    rw [List.foldl_cons, ih, appendClause, substitute_echo_singleton hline, List.map_cons,
      List.flatMap_cons, List.append_assoc]

/-- The outer loop's body appends the directory's own line. -/
theorem stripLine_foldl {line : Text} (hl : Settled line) (lastLogDir : Name) (d : Directory) :
    stripLine (d.files.foldl (appendClause columns lastLogDir d.name) line)
      = line ++ combined columns lastLogDir d := by
  rw [foldl_appendClause hc, flatMap_append_separator _ _ (by simp [d.nonempty]),
    ← List.append_assoc, stripLine, removeSuffix_append]
  exact substitute_echo_words (hl.append (combined_tight hc lastLogDir d))

end Columns

/-- The two variables do not meet. -/
theorem foldl_perFile (lastLogDir dir : Name) :
    ∀ (files : List Name) (ls : PlotLines),
      files.foldl (perFile lastLogDir dir) ls =
        { allInOnePlotLineTime :=
            files.foldl (appendClause timeColumns lastLogDir dir) ls.allInOnePlotLineTime
          allInOnePlotLineComparisons :=
            files.foldl (appendClause comparisonsColumns lastLogDir dir)
              ls.allInOnePlotLineComparisons } := by
  intro files
  induction files with
  | nil => intro ls; rfl
  | cons file files ih => intro ls; exact ih (perFile lastLogDir dir ls file)

/-- Both variables settled. -/
def PlotLines.IsSettled (ls : PlotLines) : Prop :=
  Settled ls.allInOnePlotLineTime ∧ Settled ls.allInOnePlotLineComparisons

/-- Both variables with a directory's lines appended. -/
def PlotLines.extend (lastLogDir : Name) (ls : PlotLines) (d : Directory) : PlotLines where
  allInOnePlotLineTime := ls.allInOnePlotLineTime ++ combined timeColumns lastLogDir d
  allInOnePlotLineComparisons :=
    ls.allInOnePlotLineComparisons ++ combined comparisonsColumns lastLogDir d

/-- **One iteration of the outer loop** appends the directory's lines to what
the variables already hold. -/
theorem perDirectory_eq {ls : PlotLines} (h : ls.IsSettled) (lastLogDir : Name) (d : Directory) :
    perDirectory lastLogDir ls d = ls.extend lastLogDir d := by
  unfold perDirectory
  rw [foldl_perFile]
  simp only [stripLine_foldl (.inl rfl) h.1, stripLine_foldl (.inr rfl) h.2]
  rfl

theorem extend_isSettled {ls : PlotLines} (h : ls.IsSettled) (lastLogDir : Name) (d : Directory) :
    (ls.extend lastLogDir d).IsSettled :=
  ⟨.inr (h.1.append (combined_tight (.inl rfl) lastLogDir d)),
    .inr (h.2.append (combined_tight (.inr rfl) lastLogDir d))⟩

/-! ## A whole run -/

theorem inits_eq_cons {α : Type} (l : List α) : l.inits = [] :: l.inits.tail := by
  cases l with
  | nil => rfl
  | cons x l => rw [List.inits_cons, List.tail_cons]

/-- At every directory gnuplot gets the lines of all directories so far, one
right behind the other. -/
theorem handed_eq (lastLogDir : Name) :
    ∀ (dirs : List Directory) {ls : PlotLines}, ls.IsSettled →
      handed lastLogDir ls dirs
        = dirs.inits.tail.map fun seen => seen.foldl (PlotLines.extend lastLogDir) ls := by
  intro dirs
  induction dirs with
  | nil => intro ls _; rfl
  | cons d dirs ih =>
    intro ls h
    rw [handed, perDirectory_eq h, ih (extend_isSettled h lastLogDir d), List.inits_cons,
      List.tail_cons, List.map_map, inits_eq_cons dirs, List.map_cons, List.tail_cons]
    rfl

/-- The lines of the second directory start with the clauses of the first. -/
theorem plotLines_ne_of_two (lastLogDir : Name) (d e : Directory) (rest : List Directory) :
    plotLines lastLogDir (d :: e :: rest)
      ≠ (d :: e :: rest).map (combinedLines lastLogDir) := by
  intro h
  have hempty : PlotLines.IsSettled ⟨[], []⟩ := ⟨.inl rfl, .inl rfl⟩
  rw [plotLines, handed_eq lastLogDir _ hempty, List.inits_cons, List.inits_cons,
    inits_eq_cons rest] at h
  simp only [List.tail_cons, List.map_cons, List.foldl_cons, List.foldl_nil,
    List.cons.injEq] at h
  have htime := congrArg PlotLines.allInOnePlotLineTime h.2.1
  simp only [PlotLines.extend, combinedLines, List.nil_append] at htime
  have hlen := congrArg List.length htime
  rw [List.length_append] at hlen
  -- the first directory has a file, so its clauses are not nothing
  have hpos := List.length_pos_iff.mpr (combined_tight (.inl rfl) lastLogDir d).ne_nil
  omega

/-- **The plot lines are per directory only for one directory.** At every
iteration of the outer loop both lines are the comma-separated clauses of that
directory's files if and only if there is no second directory. -/
theorem plotLines_are_per_directory_iff (lastLogDir : Name) (dirs : List Directory) :
    plotLines lastLogDir dirs = dirs.map (combinedLines lastLogDir) ↔ dirs.length ≤ 1 := by
  have hempty : PlotLines.IsSettled ⟨[], []⟩ := ⟨.inl rfl, .inl rfl⟩
  match dirs with
  | [] => simp [plotLines, handed]
  | [d] => simp [plotLines, handed, perDirectory_eq hempty, PlotLines.extend, combinedLines]
  | d :: e :: rest =>
    constructor
    · intro h
      exact absurd h (plotLines_ne_of_two lastLogDir d e rest)
    · intro h
      exact absurd h (by simp)

/-- A log directory. -/
def aprilLogDir : Name where
  text := "logs/2009-Apr-01_00:00:00".toList
  nonempty := by simp
  plain := rfl

/-- Two data sets with one file each. -/
def twoDirectories : List Directory :=
  [⟨dataSetName .random, [algorithmName .heapSort], by simp⟩,
   ⟨dataSetName .sorted, [algorithmName .heapSort], by simp⟩]

/-- At the second directory the time line has a clause of the first, and no
separator after it. -/
theorem plotLines_two_directories :
    (plotLines aprilLogDir twoDirectories).map PlotLines.allInOnePlotLineTime
      = [("'logs/2009-Apr-01_00:00:00/random_data/heap_sort' using 1:2 title "
          ++ "\"heap_sort\" with lines").toList,
        ("'logs/2009-Apr-01_00:00:00/random_data/heap_sort' using 1:2 title "
          ++ "\"heap_sort\" with lines"
          ++ "'logs/2009-Apr-01_00:00:00/sorted_data/heap_sort' using 1:2 title "
          ++ "\"heap_sort\" with lines").toList] ∧
    plotLines aprilLogDir twoDirectories ≠ twoDirectories.map (combinedLines aprilLogDir) := by
  have hempty : PlotLines.IsSettled ⟨[], []⟩ := ⟨.inl rfl, .inl rfl⟩
  refine ⟨?_, plotLines_ne_of_two aprilLogDir _ _ []⟩
  rw [plotLines, handed_eq aprilLogDir _ hempty]
  simp only [String.toList_append]
  decide +kernel

end Satf.Script
