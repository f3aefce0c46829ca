import Satf.Program.Complete

/-!
# What the script plots of a finished program

`satf.sh` looks for the y ranges in the last line of each sorted log file. The
log files that a finished program has left all end at the same size.

> `maxima_of_program`: the two maxima are the largest time and the largest
> number of comparisons measured at `max_size`, raised from 0 to 1.

So whether the plots show every point depends on the smaller sizes alone.
-/

namespace Satf.Program

open Satf.Lib Satf.Measure Satf.Driver

variable {isMidpoint : UInt32 → UInt32 → Bool} {o : Options} {dice : Nat → Int} {dir : Path}
variable {n : Nat} {fs : FileSystem Char} {p : State n} {a : Algorithm} {d : DataSet}

/-- A log file per algorithm and data set. -/
abbrev Listing := List (List (Algorithm × DataSet))

/-- What the script's loops read: the contents of the listed files. -/
def contents (dir : Path) (fs : FileSystem Char) (files : Listing) : List (List Shell.Text) :=
  files.map fun directory => directory.map fun x => fs.content (logFile dir x.1 x.2)

/-- `v` is the largest value of a column among the records of this size, raised
from 0 to 1. -/
structure MaximumAt (col : Script.Column) (left : List Record) (size v : Nat) : Prop where
  bound : ∀ r ∈ left, r.task.data.length = size → (col.value (entryOf r)).toNat ≤ v
  positive : 1 ≤ v
  attained : v = 1 ∨
    ∃ r ∈ left, r.task.data.length = size ∧ (col.value (entryOf r)).toNat = v

/-- The entries of a pair. -/
def entriesFor (left : List Record) (a : Algorithm) (d : DataSet) : List Script.Entry :=
  (left.filter (Record.isFor a d)).map entryOf

/-- A file that is not empty exists. -/
theorem exists_file {q : Path} (h : fs.content q ≠ []) : ∃ xs, fs.node q = some (.file xs) := by
  unfold FileSystem.content at h
  split at h
  next xs hxs => exact ⟨xs, hxs⟩
  next => exact absurd rfl h

/-- A record has a line. -/
theorem linesFor_ne_nil {left : List Record} {r : Record} (hr : r ∈ left) :
    linesFor left r.task.algorithm r.task.dataTraits ≠ [] := by
  have hmem : r ∈ left.filter (Record.isFor r.task.algorithm r.task.dataTraits) :=
    List.mem_filter.mpr ⟨hr, decide_eq_true ⟨rfl, rfl⟩⟩
  intro hnil
  have hline := List.flatMap_eq_nil_iff.mp hnil r hmem
  rw [line_eq_text] at hline
  cases (List.append_eq_nil_iff.mp hline).2

section
variable (hmax : o.maxSize.toNat < 2 ^ 31)
  (h : Reachable (step isMidpoint o dice dir) (State.init n fs) p)
  (hret : p.pool.main = .returned)
include hmax h hret

theorem finished_sizes_small (a : Algorithm) (d : DataSet) :
    (sizesLogged p a d).Perm (sizesDue o a) :=
  (finished_sizes (fun hmax' => by rw [hmax'] at hmax; exact absurd hmax (by decide)) h hret a d).1

/-- No record is for a size above `max_size`, and an `int` holds its size. -/
theorem size_le {r : Record} (hr : r ∈ p.left) :
    r.task.data.length ≤ o.maxSize.toNat ∧ (entryOf r).size = r.task.data.length := by
  have hmem : r ∈ p.left.filter (Record.isFor r.task.algorithm r.task.dataTraits) :=
    List.mem_filter.mpr ⟨hr, decide_eq_true ⟨rfl, rfl⟩⟩
  have hdue := (finished_sizes_small hmax h hret r.task.algorithm r.task.dataTraits).mem_iff.mp
    (List.mem_map_of_mem hmem)
  have hle : r.task.data.length ≤ o.maxSize.toNat := by
    unfold sizesDue at hdue
    split at hdue
    · rw [List.mem_range'_1] at hdue
      omega
    · cases hdue
  exact ⟨hle, intOfSize_of_lt (by omega)⟩

theorem entries_distinct (a : Algorithm) (d : DataSet) :
    ((entriesFor p.left a d).map Script.Entry.size).Nodup := by
  have hsizes : (entriesFor p.left a d).map Script.Entry.size
      = (sizesLogged p a d).map Int.ofNat := by
    unfold entriesFor sizesLogged
    rw [List.map_map, List.map_map]
    exact List.map_congr_left fun r hr => (size_le hmax h hret (List.mem_filter.mp hr).1).2
  rw [hsizes]
  refine List.Nodup.map Int.ofNat_injective ?_
  refine (finished_sizes_small hmax h hret a d).nodup_iff.mpr ?_
  exact (sizesDue_ascending o a).imp Nat.ne_of_lt

/-- The log file of a pair. -/
def logFileOf (a : Algorithm) (d : DataSet) : Script.LogFile :=
  ⟨entriesFor p.left a d, entries_distinct hmax h hret a d⟩

omit hret in
/-- Some record of a pair that has any is for `max_size`. -/
theorem exists_maxSize (hret : p.pool.main = .returned) {r : Record} (hr : r ∈ p.left) :
    ∃ r' ∈ p.left, r'.isFor r.task.algorithm r.task.dataTraits = true ∧
      r'.task.data.length = o.maxSize.toNat := by
  have hperm := finished_sizes_small hmax h hret r.task.algorithm r.task.dataTraits
  have hmem : r ∈ p.left.filter (Record.isFor r.task.algorithm r.task.dataTraits) :=
    List.mem_filter.mpr ⟨hr, decide_eq_true ⟨rfl, rfl⟩⟩
  have hdue := hperm.mem_iff.mp (List.mem_map_of_mem hmem)
  have hlast : o.maxSize.toNat ∈ sizesDue o r.task.algorithm := by
    unfold sizesDue at hdue ⊢
    split at hdue
    next hscheduled =>
      rw [if_pos hscheduled, List.mem_range'_1]
      rw [List.mem_range'_1] at hdue
      omega
    next => cases hdue
  obtain ⟨r', hr', hsize⟩ := List.mem_map.mp (hperm.mem_iff.mpr hlast)
  exact ⟨r', (List.mem_filter.mp hr').1, (List.mem_filter.mp hr').2, hsize⟩

/-- The entries of largest size are those for `max_size`. -/
theorem isLargest_iff {r : Record} (hr : r ∈ p.left) :
    (logFileOf hmax h hret r.task.algorithm r.task.dataTraits).IsLargest (entryOf r) ↔
      r.task.data.length = o.maxSize.toNat := by
  have hmem : entryOf r ∈ entriesFor p.left r.task.algorithm r.task.dataTraits :=
    List.mem_map_of_mem (List.mem_filter.mpr ⟨hr, decide_eq_true ⟨rfl, rfl⟩⟩)
  obtain ⟨hle, hsize⟩ := size_le hmax h hret hr
  constructor
  · rintro ⟨-, hlargest⟩
    obtain ⟨r', hr', hfor, hlength⟩ := exists_maxSize hmax h hret hr
    have hle' := hlargest (entryOf r') (List.mem_map_of_mem (List.mem_filter.mpr ⟨hr', hfor⟩))
    rw [hsize, (size_le hmax h hret hr').2, hlength] at hle'
    exact Nat.le_antisymm hle (Int.ofNat_le.mp hle')
  · intro hlength
    refine ⟨hmem, fun e he => ?_⟩
    obtain ⟨r', hr', rfl⟩ := List.mem_map.mp he
    obtain ⟨hle', hsize'⟩ := size_le hmax h hret (List.mem_filter.mp hr').1
    rw [hsize, hsize', hlength]
    exact Int.ofNat_le.mpr hle'

/-- What the loops track is the maximum at `max_size`. -/
theorem maximumAt_of_tracks {col : Script.Column} {files : Listing} {v : Nat}
    (hlisted : ∀ r ∈ p.left, (r.task.algorithm, r.task.dataTraits) ∈ files.flatten)
    (htracks : Script.Tracks col
      (files.map fun directory => directory.map fun x => logFileOf hmax h hret x.1 x.2).flatten v) :
    MaximumAt col p.left o.maxSize.toNat (max v 1) := by
  have hflatten : (files.map fun directory =>
      directory.map fun x => logFileOf hmax h hret x.1 x.2).flatten
        = files.flatten.map fun x => logFileOf hmax h hret x.1 x.2 := List.map_flatten.symm
  rw [hflatten] at htracks
  refine ⟨fun r hr hlength => ?_, Nat.le_max_right _ _, ?_⟩
  · have hle := htracks.bound _ (List.mem_map_of_mem (hlisted r hr)) _
      ((isLargest_iff hmax h hret hr).mpr hlength)
    omega
  · by_cases hone : v ≤ 1
    · exact .inl (Nat.max_eq_right hone)
    · obtain ⟨f, hf, e, he, hv⟩ := htracks.attained.resolve_left (by omega)
      obtain ⟨x, -, rfl⟩ := List.mem_map.mp hf
      obtain ⟨r, hr, rfl⟩ := List.mem_map.mp he.1
      obtain ⟨hmem, hfor⟩ := List.mem_filter.mp hr
      obtain ⟨hx, hx'⟩ : r.task.algorithm = x.1 ∧ r.task.dataTraits = x.2 := of_decide_eq_true hfor
      rw [← hx, ← hx'] at he
      exact .inr ⟨r, hmem, (isLargest_iff hmax h hret hmem).mp he, by omega⟩

/-- **The plots scale to what was measured at `max_size`.** For bounds that an
`int` holds and an empty run directory: of what a finished program has left, in
whatever order its log files are listed, the script's maxima are the largest
time and the largest number of comparisons among the lines for `max_size`,
raised from 0 to 1. -/
theorem maxima_of_program (hdir : fs.node dir = some .dir)
    (hempty : ∀ c, fs.node (c :: dir) = none) {files : Listing}
    (hlist : ∀ a d xs, p.fs.node (logFile dir a d) = some (.file xs) → (a, d) ∈ files.flatten) :
    ∃ t c, (Script.overallMaxima (contents dir p.fs files)).1 = ⟨decimal t, decimal c⟩ ∧
      MaximumAt .time p.left o.maxSize.toNat t ∧
      MaximumAt .comparisons p.left o.maxSize.toNat c := by
  have hmax' : o.maxSize ≠ 4294967295 := fun hmax' => by
    rw [hmax'] at hmax
    exact absurd hmax (by decide)
  obtain ⟨script, hends, -⟩ := loop_covers isMidpoint o dice hmax'
  have hfiles := (finished_files hdir hempty (hends _ (Nat.le_refl _)) h hret).1
  have hcontents : contents dir p.fs files
      = (files.map fun directory => directory.map fun x => logFileOf hmax h hret x.1 x.2).map
          fun directory => directory.map Script.LogFile.content := by
    unfold contents
    rw [List.map_map]
    refine List.map_congr_left fun directory _ => ?_
    show _ = (directory.map fun x => logFileOf hmax h hret x.1 x.2).map Script.LogFile.content
    rw [List.map_map]
    refine List.map_congr_left fun x _ => ?_
    show p.fs.content (logFile dir x.1 x.2) = (logFileOf hmax h hret x.1 x.2).content
    rw [hfiles, linesFor_eq_unlines, Script.LogFile.content_eq]
    show _ = Shell.unlines ((entriesFor p.left x.1 x.2).map Script.Entry.text)
    rw [entriesFor, List.map_map]
    rfl
  have hlisted : ∀ r ∈ p.left, (r.task.algorithm, r.task.dataTraits) ∈ files.flatten := by
    intro r hr
    have hsome : p.fs.content (logFile dir r.task.algorithm r.task.dataTraits) ≠ [] := by
      rw [hfiles]
      exact linesFor_ne_nil hr
    obtain ⟨xs, hxs⟩ := exists_file hsome
    exact hlist _ _ xs hxs
  obtain ⟨v, w, hmaxima, htime, hcomparisons⟩ := Script.overallMaxima_eq
    (files.map fun directory => directory.map fun x => logFileOf hmax h hret x.1 x.2)
  refine ⟨max v 1, max w 1, ?_, maximumAt_of_tracks hmax h hret hlisted htime,
    maximumAt_of_tracks hmax h hret hlisted hcomparisons⟩
  rw [hcontents, hmaxima]

end

set_option maxRecDepth 10000 in
/-- The theorem on the run with one size: its log files are listed as `ls` does. -/
theorem maxima_of_program_one_size :
    ∃ p t c, run (step (fun _ _ => false) oneSize (fun _ => 1) []) (State.init 1 FileSystem.empty)
        oneSizeRun = some p ∧
      (Script.overallMaxima (contents [] p.fs
        ([.partiallySorted, .random, .reverseSorted, .sorted].map fun d =>
          [.heapSort, .stdSort, .stdStableSort].map fun a => (a, d)))).1
        = ⟨decimal t, decimal c⟩ ∧
      MaximumAt .time p.left 1 t ∧ MaximumAt .comparisons p.left 1 c := by
  -- the fourth sort is not scheduled and has no log files
  have hends : (run (step (fun _ _ => false) oneSize (fun _ => 1) [])
      (State.init 1 FileSystem.empty) oneSizeRun).map (fun p => (p.pool.main,
        DataSet.all.map fun d => p.fs.node (logFile [] .recursiveQuickSort d)))
        = some (.returned, [none, none, none, none]) := rfl
  obtain ⟨p, hp, hview⟩ := Option.map_eq_some_iff.mp hends
  obtain ⟨hret, hnone⟩ := Prod.mk.inj hview
  have hdir : FileSystem.empty.node [] = some (.dir : Node Char) := rfl
  have hlist : ∀ a d xs, p.fs.node (logFile [] a d) = some (.file xs) →
      (a, d) ∈ ([.partiallySorted, .random, .reverseSorted, .sorted].map fun d =>
        [.heapSort, .stdSort, .stdStableSort].map fun a => (a, d) : Listing).flatten := by
    intro a d xs hxs
    cases a with
    | recursiveQuickSort =>
      have hall : ∀ d, p.fs.node (logFile [] .recursiveQuickSort d) = none := by
        intro d
        simp only [DataSet.all, List.map_cons, List.cons.injEq] at hnone
        cases d <;> simp [hnone]
      rw [hall] at hxs
      cases hxs
    | _ => cases d <;> decide
  obtain ⟨t, c, hmaxima, htime, hcomparisons⟩ :=
    maxima_of_program (by decide) ⟨_, hp⟩ hret hdir (fun _ => rfl) hlist
  exact ⟨p, t, c, hp, hmaxima, htime, hcomparisons⟩

end Satf.Program
