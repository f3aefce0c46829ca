import Satf.Measure.Exactness
import Satf.Program.System
import Satf.Script.Maxima

/-!
# What a finished program leaves behind

The program refines the measuring run, whose invariants say what is logged,
and that run's script is the loop's, which covers every size. Together:

> `finished_logs`: once `main` has returned, the log file of each data set and
> algorithm holds one complete line for each size, and nothing else.
>
> `finished_logs_sorted`: after the script's `sort -n`, the sizes in each log
> file are `max(min_size, 1), ..., max_size`, in this order.

How the lines come before the sort depends on the workers. With one worker
they are ascending already (`InOrder`): it takes the tasks first come, first
served, and finishes each before it takes the next.
-/

namespace Satf.Program

open Satf.Lib Satf.Measure Satf.Driver
open Satf.Pool (PoolCore)

variable {isMidpoint : UInt32 → UInt32 → Bool} {o : Options} {dice : Nat → Int} {dir : Path}
variable {n : Nat}

/-! ## Sizes -/

/-- The sizes of the tasks for one pair, in order. -/
def sizesFor (ts : List Task) (a : Algorithm) (d : DataSet) : List Nat :=
  (ts.filter fun t => t.algorithm = a ∧ t.dataTraits = d).map fun t => t.data.length

/-- The sizes that a pair is measured at. -/
def sizesDue (o : Options) (a : Algorithm) : List Nat :=
  if a ∈ scheduledAlgorithms then
    List.range' (max o.minSize.toNat 1) (o.maxSize.toNat + 1 - max o.minSize.toNat 1)
  else []

theorem sizesDue_ascending (o : Options) (a : Algorithm) :
    (sizesDue o a).Pairwise (· < ·) := by
  unfold sizesDue
  split
  · exact List.pairwise_lt_range'
  · exact List.Pairwise.nil

theorem count_sizesFor (ts : List Task) (a : Algorithm) (d : DataSet) (s : Nat) :
    (sizesFor ts a d).count s = ts.countP (isFor a d s) := by
  unfold sizesFor
  rw [List.count_eq_countP, List.countP_map, List.countP_filter]
  refine List.countP_congr fun t _ => ?_
  simp only [isFor, Function.comp, Bool.and_eq_true, decide_eq_true_eq, beq_iff_eq]
  exact ⟨fun h => ⟨h.2.1, h.2.2, h.1⟩, fun h => ⟨h.2.2, h.1, h.2.1⟩⟩

/-- Tasks that cover the sizes have each of them once for each pair. -/
theorem Covers.sizes {ts : List Task}
    (h : Driver.Covers (max o.minSize.toNat 1) o.maxSize.toNat ts) (a : Algorithm) (d : DataSet) :
    (sizesFor ts a d).Perm (sizesDue o a) := by
  rw [List.perm_iff_count]
  intro s
  rw [count_sizesFor, h.once]
  unfold sizesDue
  by_cases ha : a ∈ scheduledAlgorithms
  · rw [if_pos ha, List.count_range_1']
    by_cases hs : max o.minSize.toNat 1 ≤ s ∧ s ≤ o.maxSize.toNat
    · rw [if_pos ⟨ha, hs⟩, if_pos (by omega)]
    · rw [if_neg fun h => hs h.2, if_neg (by omega)]
  · rw [if_neg ha, if_neg fun h => ha h.1]
    rfl

/-! ## Vectors only grow -/

theorem length_le_vectors (act : MainAct) (data : Vectors) (d : DataSet) :
    (data d).length ≤ (act.vectors data d).length := by
  cases act with
  | pushBack j x =>
    by_cases hj : d = j
    · subst hj
      simp [MainAct.vectors]
    · simp [MainAct.vectors, Function.update_of_ne hj]
  | sort j =>
    by_cases hj : d = j
    · subst hj
      simp [MainAct.vectors, (ascending_perm _).length_eq]
    · simp [MainAct.vectors, Function.update_of_ne hj]
  | schedule a j => exact Nat.le_refl _

theorem length_le_scheduled (script : List MainAct) :
    ∀ (data : Vectors) (t : Task), t ∈ scheduledTasks data script →
      (data t.dataTraits).length ≤ t.data.length := by
  induction script with
  | nil => intro data t ht; cases ht
  | cons act script ih =>
    intro data t ht
    rw [scheduledTasks, List.mem_append] at ht
    rcases ht with ht | ht
    · cases act with
      | schedule a j =>
        rw [MainAct.task, List.mem_singleton] at ht
        subst ht
        exact Nat.le_refl _
      | pushBack | sort => cases ht
    · exact Nat.le_trans (length_le_vectors act data _) (ih _ t ht)

/-- Tasks on one data set are scheduled in the order of their sizes. -/
theorem scheduled_ascending (script : List MainAct) :
    ∀ data : Vectors, (scheduledTasks data script).Pairwise
      fun t u => t.dataTraits = u.dataTraits → t.data.length ≤ u.data.length := by
  induction script with
  | nil => exact fun _ => List.Pairwise.nil
  | cons act script ih =>
    intro data
    rw [scheduledTasks]
    cases act with
    | schedule a j =>
      refine List.Pairwise.cons ?_ (ih data)
      intro u hu hd
      have hle := length_le_scheduled script data u hu
      rw [← hd] at hle
      exact hle
    | pushBack | sort => exact ih _

/-- So the sizes of a pair come in ascending order. -/
theorem sizesFor_ascending (script : List MainAct) (data : Vectors) (a : Algorithm) (d : DataSet) :
    (sizesFor (scheduledTasks data script) a d).Pairwise (· ≤ ·) := by
  unfold sizesFor
  rw [List.pairwise_map]
  refine ((scheduled_ascending script data).filter _).imp_of_mem ?_
  intro t u ht hu h
  rw [List.mem_filter, decide_eq_true_eq] at ht hu
  exact h (ht.2.2.trans hu.2.2.symm)

/-! ## One worker -/

/-- The task of a phase, as a list. -/
def taskOf : Phase → List Task
  | .idle => []
  | .fetched t | .constructed t | .sorting t _ _ | .sorted t _ _ | .nullRead t => [t]
  | .atLog r | .inLog r _ | .threw r => [r.task]

/-- With one worker, the tasks are logged in the order in which they were
scheduled. -/
structure InOrder (script : List MainAct) (s : World 1) : Prop where
  order : ∃ executed, script = executed ++ s.script ∧ s.data = vectorsAfter emptyVectors executed ∧
    s.left.map Record.task ++ taskOf (s.worker 0) ++ s.pending
      = scheduledTasks emptyVectors executed

/-- A step of the only worker's task adds it to the logged ones, or keeps it. -/
theorem taskMove_order {s s' : World 1} {w : Fin 1} (h : TaskMove dir s w s') :
    s'.left.map Record.task ++ taskOf (s'.worker 0)
      = s.left.map Record.task ++ taskOf (s.worker 0) := by
  have hw : w = 0 := Subsingleton.elim _ _
  subst hw
  have hkeep : ∀ {p : Phase} {u : World 1}, u.worker = (s.at 0 p).worker → u.left = s.left →
      taskOf p = taskOf (s.worker 0) →
      u.left.map Record.task ++ taskOf (u.worker 0)
        = s.left.map Record.task ++ taskOf (s.worker 0) := by
    intro p u hworker hleft hp
    rw [hworker, hleft, at_worker_self, hp]
  cases h with
  | copyLess => rfl
  | construct hw | startClock us hw | compare hw | stopClock us hw | count hw | lock hw
  | makeDirFails hw | makeDir hw | openFile hw | write k hw =>
    exact hkeep rfl rfl (by rw [hw]; rfl)
  | nullCounter hw =>
    rcases hw with ⟨start, c, hw⟩ | ⟨micros, c, hw⟩
    · exact hkeep rfl rfl (by rw [hw]; rfl)
    · exact hkeep rfl rfl (by rw [hw]; rfl)
  | @unlock r done hw =>
    rw [hw]
    show (s.left ++ [r]).map Record.task ++ taskOf ((s.at 0 .idle).worker 0) = _
    rw [at_worker_self, List.map_append]
    exact List.append_nil _

theorem InOrder.step {script : List MainAct} {s s' : World 1} {a : Measure.Act 1}
    (h : InOrder script s) (hstep : fifoStep dir s a = some s') : InOrder script s' := by
  obtain ⟨executed, hscript, hdata, horder⟩ := h.order
  rcases Measure.step_cases (fifoStep_eq_some hstep) with ⟨act, rest, -, hs, rfl⟩ |
    ⟨-, -, -, -, rfl⟩ | ⟨w, k, t, rfl, hw, hk, rfl⟩ | ⟨w, act, -, hmove⟩
  · -- `main` goes on, and what it schedules comes last
    refine ⟨executed ++ [act], ?_, ?_, ?_⟩
    · rw [hscript, hs, List.append_assoc, List.singleton_append]
    · show act.vectors s.data = _
      rw [vectorsAfter_append, ← hdata]
      rfl
    · show s.left.map Record.task ++ taskOf (s.worker 0) ++ (s.pending ++ act.task s.data) = _
      rw [← List.append_assoc, horder, scheduledTasks_append, ← hdata, scheduledTasks,
        scheduledTasks, List.append_nil]
  · exact ⟨executed, hscript, hdata, horder⟩
  · -- the worker is idle and takes the first
    have hw0 : w = 0 := Subsingleton.elim _ _
    subst hw0
    cases k with
    | succ k => cases hstep
    | zero =>
      refine ⟨executed, hscript, hdata, ?_⟩
      show s.left.map Record.task ++ taskOf ((s.at 0 (.fetched t)).worker 0)
        ++ s.pending.eraseIdx 0 = _
      cases hp : s.pending with
      | nil => rw [hp] at hk; cases hk
      | cons u us =>
        rw [hp] at hk horder
        rw [hw] at horder
        cases hk
        rw [at_worker_self, ← horder, List.eraseIdx_cons_zero]
        simp [taskOf]
  · obtain ⟨-, hs, hd, hp, -, -⟩ := hmove.tasks
    refine ⟨executed, by rw [hs]; exact hscript, by rw [hd]; exact hdata, ?_⟩
    rw [taskMove_order hmove, hp]
    exact horder

theorem reachable_inOrder {script : List MainAct} {fs : FileSystem Char} {s : World 1}
    (h : Reachable (fifoStep dir) (World.init 1 script fs) s) : InOrder script s :=
  h.invariant ⟨[], rfl, rfl, rfl⟩ fun _ _ _ hinv hstep => hinv.step hstep

/-! ## At the end -/

/-- The sizes logged for a pair, in the order of the lines. -/
def sizesLogged (p : State n) (a : Algorithm) (d : DataSet) : List Nat :=
  (p.left.filter (Record.isFor a d)).map fun r => r.task.data.length

theorem sizesLogged_eq (p : State n) (a : Algorithm) (d : DataSet) :
    sizesLogged p a d = sizesFor (p.left.map Record.task) a d := by
  unfold sizesLogged sizesFor
  rw [List.filter_map, List.map_map]
  rfl

/-- What a finished program has logged, from the measuring run that it is. -/
theorem finished_tasks {fs : FileSystem Char} {p : State n} {fuel : Nat} {script : List MainAct}
    (hscript : forLoop isMidpoint o dice fuel 1 0 = some script)
    (h : Reachable (step isMidpoint o dice dir) (State.init n fs) p)
    (hret : p.pool.main = .returned) :
    (p.left.map Record.task).Perm (scheduledTasks emptyVectors script) ∧
      (n = 1 → p.left.map Record.task = scheduledTasks emptyVectors script) := by
  obtain ⟨x, hx, hviews⟩ := reachable_views hscript h
  have htask := reachable_taskInv (fifo_reachable hx)
  have hleft : x.left = p.left := by rw [hviews.tasks]; rfl
  constructor
  · have hall := htask.all_logged (hviews.returned hret)
    rw [World.loggedTasks, hleft] at hall
    exact Multiset.coe_eq_coe.mp hall
  · intro hn
    subst hn
    obtain ⟨executed, hexecuted, -, horder⟩ := (reachable_inOrder hx).order
    obtain ⟨hnil, hpend, hidle⟩ := htask.finished (hviews.returned hret)
    rw [hnil, List.append_nil] at hexecuted
    rw [hidle 0, hpend, List.append_nil, hleft] at horder
    rw [hexecuted, ← horder]
    exact (List.append_nil _).symm

/-- Nobody is inside `log()` any more, so the files hold complete lines. -/
theorem finished_files {fs : FileSystem Char} {p : State n} {fuel : Nat} {script : List MainAct}
    (hdir : fs.node dir = some .dir) (hempty : ∀ c, fs.node (c :: dir) = none)
    (hscript : forLoop isMidpoint o dice fuel 1 0 = some script)
    (h : Reachable (step isMidpoint o dice dir) (State.init n fs) p)
    (hret : p.pool.main = .returned) :
    (∀ a d, p.fs.content (logFile dir a d) = linesFor p.left a d) ∧
      ∀ r ∈ p.left, r.counted.toNat = r.comparisons % 2 ^ 32 := by
  obtain ⟨x, hx, hviews⟩ := reachable_views hscript h
  have hreach := fifo_reachable hx
  have hlog := reachable_logInv hdir hempty hreach
  have hfree := hlog.free_of_idle ((reachable_taskInv hreach).finished (hviews.returned hret)).2.2
  have hleft : x.left = p.left := by rw [hviews.tasks]; rfl
  have hfs : x.fs = p.fs := by rw [hviews.tasks]; rfl
  constructor
  · intro a d
    have hcontent := hlog.content a d
    rw [World.partialLine, hfree, List.append_nil, hfs, hleft] at hcontent
    exact hcontent
  · intro r hr
    rw [(reachable_slotInv hreach).logged r (by rw [hleft]; exact hr), UInt32.toNat_ofNat']

/-- The sizes that a finished program has logged are those due. -/
theorem finished_sizes {fs : FileSystem Char} {p : State n} (hmax : o.maxSize ≠ 4294967295)
    (h : Reachable (step isMidpoint o dice dir) (State.init n fs) p)
    (hret : p.pool.main = .returned) (a : Algorithm) (d : DataSet) :
    (sizesLogged p a d).Perm (sizesDue o a) ∧
      (n = 1 → sizesLogged p a d = sizesDue o a) := by
  obtain ⟨script, hends, hcov⟩ := loop_covers isMidpoint o dice hmax
  obtain ⟨hperm, hone⟩ := finished_tasks (hends _ (Nat.le_refl _)) h hret
  have hsizes := Covers.sizes hcov a d
  rw [sizesLogged_eq]
  refine ⟨((hperm.filter _).map _).trans hsizes, fun hn => ?_⟩
  rw [hone hn]
  -- ascending, and a permutation of what is due
  exact hsizes.eq_of_pairwise (fun _ _ _ _ => Nat.le_antisymm)
    (sizesFor_ascending script emptyVectors a d) ((sizesDue_ascending o a).imp Nat.le_of_lt)

/-- **A finished program has measured everything, once.** With bounds below the
largest unsigned value and an empty run directory, whatever the number of
workers and however they interleave with `main` and each other: once `main` has
returned, the log file of each data set and algorithm consists of complete
lines, one for each size from `max(min_size, 1)` to `max_size` if the algorithm
is scheduled and none otherwise; the count in a line is that of its own sort,
modulo `2^32`; and the algorithms have sorted equal vectors at equal sizes. One
worker writes the lines in the order of the sizes. -/
theorem finished_logs {fs : FileSystem Char} {p : State n} (hmax : o.maxSize ≠ 4294967295)
    (hdir : fs.node dir = some .dir) (hempty : ∀ c, fs.node (c :: dir) = none)
    (h : Reachable (step isMidpoint o dice dir) (State.init n fs) p)
    (hret : p.pool.main = .returned) :
    (∀ a d, p.fs.content (logFile dir a d) = linesFor p.left a d ∧
      (sizesLogged p a d).Perm (sizesDue o a) ∧ (n = 1 → sizesLogged p a d = sizesDue o a)) ∧
    (∀ r ∈ p.left, (∃ body, r.line = body ++ ['\n'] ∧ '\n' ∉ body) ∧
      r.counted.toNat = r.comparisons % 2 ^ 32) ∧
    ∀ r ∈ p.left, ∀ r' ∈ p.left, r.task.dataTraits = r'.task.dataTraits →
      r.task.data.length = r'.task.data.length → r.task.data = r'.task.data := by
  obtain ⟨script, hends, hcov⟩ := loop_covers isMidpoint o dice hmax
  have hscript := hends _ (Nat.le_refl _)
  obtain ⟨hfiles, hcounts⟩ := finished_files hdir hempty hscript h hret
  obtain ⟨hperm, -⟩ := finished_tasks hscript h hret
  refine ⟨?_, ?_, ?_⟩
  · exact fun a d => ⟨hfiles a d, finished_sizes hmax h hret a d⟩
  · exact fun r hr => ⟨logLine_one_break _ _ _, hcounts r hr⟩
  · intro r hr r' hr'
    exact hcov.equal _ (hperm.mem_iff.mp (List.mem_map_of_mem hr)) _
      (hperm.mem_iff.mp (List.mem_map_of_mem hr'))

/-- The theorem on a run with one size and one worker: a line for size 1. -/
theorem finished_logs_one_size :
    ∃ p, run (step (fun _ _ => false) oneSize (fun _ => 1) []) (State.init 1 FileSystem.empty)
        oneSizeRun = some p ∧
      (∀ a d, p.fs.content (logFile [] a d) = linesFor p.left a d ∧
        sizesLogged p a d = if a ∈ scheduledAlgorithms then [1] else []) ∧
      ∀ r ∈ p.left, r.counted.toNat = r.comparisons % 2 ^ 32 := by
  obtain ⟨p, hp, hret⟩ := oneSizeRun_returns
  have hdir : FileSystem.empty.node [] = some (.dir : Node Char) := rfl
  obtain ⟨hfiles, hlines, -⟩ := finished_logs (by simp [oneSize]) hdir (fun _ => rfl) ⟨_, hp⟩ hret
  exact ⟨p, hp, fun a d => ⟨(hfiles a d).1, (hfiles a d).2.2 rfl⟩, fun r hr => (hlines r hr).2⟩

/-! ## After the script's sort -/

/-- The line of a record as an entry of its log file. -/
def entryOf (r : Record) : Script.Entry where
  size := intOfSize r.task.data.length
  time := unsignedOfMicros r.micros
  comparisons := r.counted

theorem line_eq_text (r : Record) : r.line = (entryOf r).text ++ ['\n'] := rfl

theorem linesFor_eq_unlines (left : List Record) (a : Algorithm) (d : DataSet) :
    linesFor left a d
      = Shell.unlines ((left.filter (Record.isFor a d)).map fun r => (entryOf r).text) := by
  unfold linesFor Shell.unlines
  rw [List.flatMap_map]
  rfl

/-- The sizes as `sort -n` reads them off the lines, where an `int` holds them. -/
theorem map_leadingInt_texts {rs : List Record} (h : ∀ r ∈ rs, r.task.data.length < 2 ^ 31) :
    (rs.map fun r => (entryOf r).text).map Shell.leadingInt
      = (rs.map fun r => r.task.data.length).map Int.ofNat := by
  rw [List.map_map, List.map_map]
  refine List.map_congr_left fun r hr => ?_
  show Shell.leadingInt (entryOf r).text = _
  rw [Script.Entry.text_leadingInt]
  exact intOfSize_of_lt (h r hr)

/-- **The sorted log files list every size in order.** For bounds that an `int`
holds and an empty run directory, after `sort -n` of what a finished program has
left, the sizes in the lines of a log file are exactly those due, in ascending
order, and the lines are those that were logged. -/
theorem finished_logs_sorted {fs : FileSystem Char} {p : State n} (hmax : o.maxSize.toNat < 2 ^ 31)
    (hdir : fs.node dir = some .dir) (hempty : ∀ c, fs.node (c :: dir) = none)
    (h : Reachable (step isMidpoint o dice dir) (State.init n fs) p)
    (hret : p.pool.main = .returned) (a : Algorithm) (d : DataSet) :
    (Shell.lines (Shell.sortN (p.fs.content (logFile dir a d)))).map Shell.leadingInt
        = (sizesDue o a).map Int.ofNat ∧
      (Shell.lines (Shell.sortN (p.fs.content (logFile dir a d)))).Perm
        ((p.left.filter (Record.isFor a d)).map fun r => (entryOf r).text) := by
  have hmax' : o.maxSize ≠ 4294967295 := by
    intro h
    rw [h] at hmax
    exact absurd hmax (by decide)
  obtain ⟨script, hends, -⟩ := loop_covers isMidpoint o dice hmax'
  have hfiles := (finished_files hdir hempty (hends _ (Nat.le_refl _)) h hret).1 a d
  have hsizes := (finished_sizes hmax' h hret a d).1
  have hlines : Shell.lines (Shell.sortN (p.fs.content (logFile dir a d)))
      = Shell.sortLines ((p.left.filter (Record.isFor a d)).map fun r => (entryOf r).text) := by
    rw [hfiles, linesFor_eq_unlines]
    refine Shell.lines_sortN ?_
    intro l hl
    obtain ⟨r, -, rfl⟩ := List.mem_map.mp hl
    exact Script.Entry.text_not_newline _
  rw [hlines]
  refine ⟨?_, Shell.sortLines_perm _⟩
  -- the numbers read are the sizes, and there is one ascending arrangement of them
  have hsmall : ∀ r ∈ p.left.filter (Record.isFor a d), r.task.data.length < 2 ^ 31 := by
    intro r hr
    have hmem : r.task.data.length ∈ sizesDue o a := hsizes.mem_iff.mp (List.mem_map_of_mem hr)
    unfold sizesDue at hmem
    split at hmem
    · rw [List.mem_range'_1] at hmem
      omega
    · cases hmem
  have hread := ((Shell.sortLines_perm
    ((p.left.filter (Record.isFor a d)).map fun r => (entryOf r).text)).map Shell.leadingInt)
  rw [map_leadingInt_texts hsmall] at hread
  have hdue := hread.trans (hsizes.map Int.ofNat)
  refine hdue.eq_of_pairwise (fun _ _ _ _ => le_antisymm) (Shell.sortLines_ascending _) ?_
  rw [List.pairwise_map]
  exact (sizesDue_ascending o a).imp fun h => Int.ofNat_le.mpr (Nat.le_of_lt h)

/-- The theorem on the run with one size. -/
theorem finished_logs_sorted_one_size :
    ∃ p, run (step (fun _ _ => false) oneSize (fun _ => 1) []) (State.init 1 FileSystem.empty)
        oneSizeRun = some p ∧
      (Shell.lines (Shell.sortN (p.fs.content (logFile [] .stdSort .random)))).map
        Shell.leadingInt = [1] := by
  obtain ⟨p, hp, hret⟩ := oneSizeRun_returns
  have hdir : FileSystem.empty.node [] = some (.dir : Node Char) := rfl
  exact ⟨p, hp, (finished_logs_sorted (by decide) hdir (fun _ => rfl) ⟨_, hp⟩ hret
    .stdSort .random).1⟩

end Satf.Program
