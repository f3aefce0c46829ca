import Satf.Driver.Main
import Satf.Lib.Ordered
import Satf.Log.Clock

/-!
# The log directory `satf.sh` processes

`satf.sh` starts the program and then takes the last name under `logs/`:

    LAST_LOG=`ls $LOG_DIR | tail -n1`

The program creates a directory there only if it accepts its command line: it
leaves `main` before `log_init` when the options do not parse, for `--help`,
and for `min_size > max_size`.

What is under `logs/` is a list of names, or nothing before the first
directory was created there. `commandLine` is Boost's parser on the two
arguments the script passes on, or `none` where it throws.

> `processes_own_directory_iff`: the name taken is that of the run just
> started exactly when no earlier directory of the same year has a month later
> in the alphabet; after a run that created none, when there is none at all.
-/

namespace Satf.Script

open Satf.Lib Satf.Lib.Shell Satf.Log Satf.Driver

/-! ## One run of the program -/

/-- What the options hold after parsing. -/
structure CommandLine where
  help : Bool
  minSize : UInt32
  maxSize : UInt32
  threadCount : UInt32

/-- A run started by the script, or by hand with the same two arguments. -/
structure ProgramRun where
  start : LocalTime
  minSize : Text
  maxSize : Text

/-- The names under `logs/`, if the directory exists. -/
abbrev Logs := Option (List Text)

/-- `log_init("logs/")`: the directory, and in it one named after the time. -/
def logInit (t : LocalTime) (logs : Logs) : Logs :=
  let names := logs.getD []
  some (if now t ∈ names then names else now t :: names)

variable (commandLine : Text → Text → Option CommandLine)

/-- `main`'s checks on its options: the accepted ones, or `none` where it
returns or throws before `log_init`. -/
def acceptedOptions (r : ProgramRun) : Option Options :=
  (commandLine r.minSize r.maxSize).bind fun c =>
    if c.help then none else Options.check c.minSize c.maxSize c.threadCount

/-- What the run leaves under `logs/`. -/
def runProgram (logs : Logs) (r : ProgramRun) : Logs :=
  match acceptedOptions commandLine r with
  | some _ => logInit r.start logs
  | none => logs

/-! ## What the script takes -/

/-- The names under `logs/` in the order of `ls`. -/
def ls (logs : Logs) : List Text := ascending (logs.getD [])

/-- `LAST_LOG`, where there is a last line. -/
def lastLog (logs : Logs) : Option Text := (ls logs).getLast?

/-- A history of runs and the run the script has just started. -/
structure Session where
  earlier : List ProgramRun
  current : ProgramRun
  increasing : (earlier ++ [current]).Pairwise fun r r' => r.start.Before r'.start

/-- The directory processed at the end. -/
def Session.processed (s : Session) : Option Text :=
  lastLog ((s.earlier ++ [s.current]).foldl (runProgram commandLine) none)

/-- The run creates a directory. -/
def Creates (r : ProgramRun) : Prop := (acceptedOptions commandLine r).isSome = true

instance (r : ProgramRun) : Decidable (Creates commandLine r) :=
  inferInstanceAs (Decidable (_ = true))

/-- The directory that should be processed. -/
def Session.ownDirectory (s : Session) : Option Text :=
  if Creates commandLine s.current then some (now s.current.start) else none

/-! ## Names after a history -/

theorem mem_logInit {t : LocalTime} {logs : Logs} {n : Text} :
    n ∈ (logInit t logs).getD [] ↔ n ∈ logs.getD [] ∨ n = now t := by
  unfold logInit
  rw [Option.getD_some]
  by_cases h : now t ∈ logs.getD []
  · rw [if_pos h]
    refine ⟨.inl, ?_⟩
    intro hmem
    rcases hmem with hn | rfl
    · exact hn
    · exact h
  · rw [if_neg h, List.mem_cons, or_comm]

theorem mem_runProgram {logs : Logs} {r : ProgramRun} {n : Text} :
    n ∈ (runProgram commandLine logs r).getD [] ↔
      n ∈ logs.getD [] ∨ Creates commandLine r ∧ n = now r.start := by
  unfold runProgram Creates
  cases acceptedOptions commandLine r with
  | none => simp
  | some o => simp [mem_logInit]

/-- The names are those of the runs that created a directory. -/
theorem mem_foldl_runProgram {n : Text} :
    ∀ (rs : List ProgramRun) (logs : Logs),
      n ∈ (rs.foldl (runProgram commandLine) logs).getD [] ↔
        n ∈ logs.getD [] ∨ ∃ r ∈ rs, Creates commandLine r ∧ n = now r.start := by
  intro rs
  induction rs with
  | nil => intro logs; simp
  | cons r rs ih =>
    intro logs
    rw [List.foldl_cons, ih, mem_runProgram, or_assoc]
    simp only [List.mem_cons, exists_eq_or_imp]

/-! ## The last name -/

/-- The last name is one that no other exceeds. -/
theorem lastLog_eq_some {logs : Logs} {n : Text} :
    lastLog logs = some n ↔ n ∈ logs.getD [] ∧ ∀ m ∈ logs.getD [], m ≤ n :=
  ascending_getLast?_eq_some

theorem lastLog_eq_none {logs : Logs} : lastLog logs = none ↔ ∀ n, n ∉ logs.getD [] := by
  rw [lastLog, List.getLast?_eq_none_iff, ls, ← List.length_eq_zero_iff,
    (ascending_perm _).length_eq, List.length_eq_zero_iff, List.eq_nil_iff_forall_not_mem]

/-- **The script processes the directory of its own run**, or none if that run
created none, if and only if: after a run that created a directory, every
earlier run of the same year that did has a month not after the new one in the
alphabet; after one that created none, no earlier run did. -/
theorem processes_own_directory_iff (s : Session) :
    s.processed commandLine = s.ownDirectory commandLine ↔
      if Creates commandLine s.current then
        ∀ r ∈ s.earlier, Creates commandLine r → r.start.year = s.current.start.year →
          r.start.month.name ≤ s.current.start.month.name
      else ∀ r ∈ s.earlier, ¬ Creates commandLine r := by
  have hmem : ∀ n, n ∈ ((s.earlier ++ [s.current]).foldl (runProgram commandLine) none).getD [] ↔
      ∃ r ∈ s.earlier ++ [s.current], Creates commandLine r ∧ n = now r.start := by
    intro n
    rw [mem_foldl_runProgram]
    simp
  have hbefore : ∀ r ∈ s.earlier, r.start.Before s.current.start := fun r hr =>
    (List.pairwise_append.mp s.increasing).2.2 r hr s.current (List.mem_singleton_self _)
  unfold Session.processed Session.ownDirectory
  by_cases hcur : Creates commandLine s.current
  · rw [if_pos hcur, if_pos hcur, lastLog_eq_some, hmem]
    constructor
    · -- the new name is the last, so no earlier one exceeds it
      intro hown r hr hcreates
      obtain ⟨-, hlast⟩ := hown
      refine (now_le_iff_of_before (hbefore r hr)).mp (hlast _ ?_)
      exact (hmem _).mpr ⟨r, List.mem_append_left _ hr, hcreates, rfl⟩
    · intro hall
      refine ⟨⟨s.current, by simp, hcur, rfl⟩, ?_⟩
      intro m hm
      obtain ⟨r, hr, hcreates, rfl⟩ := (hmem m).mp hm
      rcases List.mem_append.mp hr with hr | hr
      · exact (now_le_iff_of_before (hbefore r hr)).mpr (hall r hr hcreates)
      · rw [List.mem_singleton.mp hr]
  · -- the run left nothing: what is there is from earlier runs
    rw [if_neg hcur, if_neg hcur, lastLog_eq_none]
    constructor
    · intro hnone r hr hcreates
      exact hnone _ ((hmem _).mpr ⟨r, List.mem_append_left _ hr, hcreates, rfl⟩)
    · intro hall n hn
      obtain ⟨r, hr, hcreates, -⟩ := (hmem n).mp hn
      rcases List.mem_append.mp hr with hr | hr
      · exact hall r hr hcreates
      · exact hcur (List.mem_singleton.mp hr ▸ hcreates)

/-! ## Two sessions that go wrong -/

/-- The value of a text of digits. -/
def digits (t : Text) : UInt32 := t.foldl (fun n c => 10 * n + (c.toNat - 48).toUInt32) 0

/-- The parser on two texts of digits that fit an unsigned value. -/
def digitsCommandLine (minSize maxSize : Text) : Option CommandLine :=
  some ⟨false, digits minSize, digits maxSize, 2⟩

def lastSecondOfMarch : ProgramRun where
  start := .of 2009 .march 31 23 59 59
  minSize := "1".toList
  maxSize := "1000".toList

/-- A run with the defaults, one second later. -/
def firstOfApril : Session where
  earlier := [lastSecondOfMarch]
  current := ⟨.of 2009 .april 1 0 0 0, "1".toList, "1000".toList⟩
  increasing := List.pairwise_pair.mpr (.inr ⟨rfl, .inl (by decide)⟩)

/-- A run with the arguments the wrong way round. -/
def wrongWayRound : Session where
  earlier := [lastSecondOfMarch]
  current := ⟨.of 2009 .april 1 0 0 0, "1000".toList, "1".toList⟩
  increasing := List.pairwise_pair.mpr (.inr ⟨rfl, .inl (by decide)⟩)

/-- Both process the directory of March: it is later in the alphabet than
April's, and the only one when the second run fails. -/
theorem processes_march :
    firstOfApril.processed digitsCommandLine = some "2009-Mar-31_23:59:59".toList ∧
    firstOfApril.ownDirectory digitsCommandLine = some "2009-Apr-01_00:00:00".toList ∧
    wrongWayRound.processed digitsCommandLine = some "2009-Mar-31_23:59:59".toList ∧
    wrongWayRound.ownDirectory digitsCommandLine = none := by
  refine ⟨?_, by decide +kernel, ?_, by decide +kernel⟩
  · rw [Session.processed, lastLog_eq_some]
    decide +kernel
  · rw [Session.processed, lastLog_eq_some]
    decide +kernel

end Satf.Script
