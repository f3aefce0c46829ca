import Satf.Measure.Invariants

/-!
# What a finished run has logged

The two results about the measuring run, assembled from its invariants.

> `counts_exact`: every comparison count is that of the task's own sort,
> modulo `2^32`.
>
> `log_files_exact`: each log file is the sequence of complete lines of the
> tasks that have left `log()`, and while a task is still inside, what it has
> written of its line; once `main` has returned there is one line for each
> scheduled task.
-/

namespace Satf.Measure

open Satf.Lib

variable {n : Nat} {dir : Path} {s : World n} {script : List MainAct} {fs : FileSystem Char}

/-! ## Counts -/

/-- **Counts are exact.** On comparators used by any threads in any order,
`count()` returns the calls on its thread since the previous `count()` there,
and no null counter is read. In the measuring run, whatever tasks a worker has
executed before, the count in a logged line is the number of comparisons of
that task's own sort. Both are modulo `2^32`. -/
theorem counts_exact {θ T : Type} [DecidableEq θ] (lt : T → T → Bool)
    {es : List (θ × CountLess.Op T)} (hdisc : CountLess.Disciplined es)
    (hr : Reachable (step dir) (World.init n script fs) s) :
    (∃ rs, CountLess.results lt (fun _ => none) es = some rs ∧ rs.length = es.length ∧
      ∀ past t rest, es = past ++ (t, .count) :: rest →
        rs[past.length]?
          = some (.counted (UInt32.ofNat (CountLess.callsSinceCount t past)))) ∧
    (∀ w t, s.worker w ≠ .nullRead t) ∧
    ∀ r ∈ s.left, r.counted.toNat = r.comparisons % 2 ^ 32 ∧
      ∃ front, r.line = front ++ ' ' :: decimal (r.comparisons % 2 ^ 32) ++ ['\n'] := by
  have hslot := reachable_slotInv hr
  refine ⟨CountLess.results_exact lt hdisc, ?_, ?_⟩
  · intro w t hw
    have h := hslot.slot w
    rw [hw] at h
    exact h
  · intro r hr
    have hcount : r.counted.toNat = r.comparisons % 2 ^ 32 := by
      rw [hslot.logged r hr, UInt32.toNat_ofNat']
    refine ⟨hcount, decimalInt (intOfSize r.task.data.length)
      ++ ' ' :: decimal (unsignedOfMicros r.micros).toNat, ?_⟩
    rw [← hcount]
    rfl

/-- Two threads taking turns with their comparators. -/
def takingTurns : List (Bool × CountLess.Op Int) :=
  [(true, .construct), (false, .construct), (true, .call 1 2), (false, .count), (true, .count)]

theorem takingTurns_disciplined : CountLess.Disciplined takingTurns := by
  intro past e rest h hread
  -- one case for each of the five places an event can stand at
  have hlen := congrArg List.length h
  rw [List.length_append, List.length_cons] at hlen
  change 5 = _ at hlen
  match past, h with
  | [], h => cases h; cases hread
  | [_], h => cases h; cases hread
  | [_, _], h => cases h; decide
  | [_, _, _], h => cases h; decide
  | [_, _, _, _], h => cases h; decide
  | _ :: _ :: _ :: _ :: _ :: past, h =>
    simp only [List.length_cons] at hlen
    omega

/-- A task on one worker, from its fetch to the release of the mutex, whose
sort makes these comparisons and whose line has `length` characters. -/
def taskOnWorker (comparisons : List (Int × Int)) (length : Nat) : List (Act 1) :=
  [.fetch 0 0, .task 0 .construct, .task 0 (.startClock 0), .task 0 .copyLess]
    ++ comparisons.map (fun ab => .task 0 (.compare ab.1 ab.2))
    ++ [.task 0 (.stopClock 5), .task 0 .count, .task 0 .lock, .task 0 .makeDir,
      .task 0 .openFile, .task 0 (.write length), .task 0 .unlock]

/-- Two tasks that `main` schedules on the same two elements. -/
def twoTasks : List MainAct :=
  [.pushBack .random 2, .pushBack .random 1, .schedule .heapSort .random,
    .schedule .stdSort .random]

/-- Both on one worker, the first with one comparison, the second with two. -/
def backToBack : List (Act 1) :=
  [.main, .main, .main, .main] ++ taskOnWorker [(1, 2)] 6 ++ taskOnWorker [(1, 2), (2, 1)] 6

/-- The theorem on these two threads, and on the two tasks back to back. -/
theorem counts_exact_taking_turns :
    (∃ rs, CountLess.results lessOf (fun _ => none) takingTurns = some rs ∧
      rs.length = takingTurns.length ∧
      ∀ past t rest, takingTurns = past ++ (t, .count) :: rest →
        rs[past.length]?
          = some (.counted (UInt32.ofNat (CountLess.callsSinceCount t past)))) ∧
    ∃ s, run (step []) (World.init 1 twoTasks FileSystem.empty) backToBack = some s ∧
      s.left.map Record.comparisons = [1, 2] ∧ (∀ w t, s.worker w ≠ .nullRead t) ∧
      ∀ r ∈ s.left, r.counted.toNat = r.comparisons % 2 ^ 32 ∧
        ∃ front, r.line = front ++ ' ' :: decimal (r.comparisons % 2 ^ 32) ++ ['\n'] := by
  have hrun : (run (step []) (World.init 1 twoTasks FileSystem.empty) backToBack).map
      (fun s => s.left.map Record.comparisons) = some [1, 2] := rfl
  obtain ⟨s, hs, hleft⟩ := Option.map_eq_some_iff.mp hrun
  have hreach : Reachable (step []) (World.init 1 twoTasks FileSystem.empty) s := ⟨backToBack, hs⟩
  obtain ⟨hturns, hnull, hcount⟩ := counts_exact lessOf takingTurns_disciplined hreach
  exact ⟨hturns, s, hs, hleft, hnull, hcount⟩

/-! ## Log files -/

/-- Part of a line is that of the worker inside the critical section. -/
theorem LogInv.partialLine_prefix (hlog : LogInv dir s) {a : Algorithm} {d : DataSet}
    (hne : s.partialLine a d ≠ []) :
    ∃ w r stage, s.worker w = .inLog r stage ∧ r.isFor a d = true ∧
      s.partialLine a d <+: r.line := by
  unfold World.partialLine at hne ⊢
  cases hm : s.logMutex with
  | none => rw [hm] at hne; exact absurd rfl hne
  | some w =>
    rw [hm] at hne
    cases hw : s.worker w with
    | inLog r stage =>
      simp only [hw] at hne ⊢
      cases stage with
      | writing done rest =>
        cases hfor : r.isFor a d with
        | true =>
          refine ⟨w, r, _, hw, hfor, ?_⟩
          rw [Phase.written, hfor, if_pos rfl]
          exact ⟨rest, hlog.progress w r done rest hw⟩
        | false => exact absurd (by simp [Phase.written, hfor]) hne
      -- before the file is open nothing has been written
      | makeDir => exact absurd rfl hne
      | openFile => exact absurd rfl hne
    | _ =>
      simp only [hw] at hne
      exact absurd rfl hne

/-- By conservation, a logged task is one that `main` has scheduled, bound to
the vector as it was then. -/
theorem TaskInv.logged_scheduled (htask : TaskInv script s) {r : Record} (hr : r ∈ s.left) :
    ∃ before after,
      script = before ++ .schedule r.task.algorithm r.task.dataTraits :: after ∧
      r.task.data = vectorsAfter emptyVectors before r.task.dataTraits := by
  obtain ⟨executed, hscript, -, hcons⟩ := htask.conserved
  have hmem : r.task ∈ scheduledTasks emptyVectors executed := by
    rw [← Multiset.mem_coe, ← hcons]
    refine Multiset.mem_add.mpr (.inl (Multiset.mem_add.mpr (.inl ?_)))
    exact Multiset.mem_coe.mpr (List.mem_map_of_mem hr)
  obtain ⟨before, after, hsplit, hbound⟩ := mem_scheduledTasks.mp hmem
  refine ⟨before, after ++ s.script, ?_, hbound⟩
  rw [hscript, hsplit, List.append_assoc, List.cons_append]

/-- Once `main` has returned, nothing is pending or in flight, so every
scheduled task has been logged. -/
theorem TaskInv.all_logged (htask : TaskInv script s) (hret : s.returned = true) :
    s.loggedTasks = ↑(scheduledTasks emptyVectors script) := by
  obtain ⟨executed, hscript, -, hcons⟩ := htask.conserved
  obtain ⟨hnil, hpend, hidle⟩ := htask.finished hret
  have hflight : s.inFlight = 0 :=
    Finset.sum_eq_zero (fun w _ => by rw [hidle w]; rfl)
  rw [hnil, List.append_nil] at hscript
  rw [hpend, hflight, add_zero, Multiset.coe_nil, add_zero, ← hscript] at hcons
  exact hcons

/-- While all workers are idle nobody holds the mutex. -/
theorem LogInv.free_of_idle (hlog : LogInv dir s) (hidle : ∀ w, s.worker w = .idle) :
    s.logMutex = none := by
  cases hm : s.logMutex with
  | none => rfl
  | some w =>
    have hin := (hlog.mutex w).mp hm
    rw [hidle w] at hin
    cases hin

/-- **Log files are exact.** In every state of every run that starts with an
empty run directory, each log file consists of the complete lines of the tasks
of its pair that have left `log()`'s critical section, one each, followed only
while a task of that pair is inside by what it has written of its own line.
Every such task was scheduled with the vector as it was then, whose length is
the first field of its line as long as an `int` holds it. No task is lost or
duplicated on the way, and once `main` has returned every scheduled task has
left its line. -/
theorem log_files_exact (hdir : fs.node dir = some .dir)
    (hempty : ∀ c, fs.node (c :: dir) = none)
    (hr : Reachable (step dir) (World.init n script fs) s) :
    (∀ a d, s.fs.content (logFile dir a d) = linesFor s.left a d ++ s.partialLine a d) ∧
    (∀ a d, s.partialLine a d ≠ [] →
      ∃ w r stage, s.worker w = .inLog r stage ∧ r.isFor a d = true ∧
        s.partialLine a d <+: r.line) ∧
    (∀ r ∈ s.left, (∃ body, r.line = body ++ ['\n'] ∧ '\n' ∉ body) ∧
      ∃ before after,
        script = before ++ .schedule r.task.algorithm r.task.dataTraits :: after ∧
        r.task.data = vectorsAfter emptyVectors before r.task.dataTraits ∧
        (r.task.data.length < 2 ^ 31 → firstField r.line = decimal r.task.data.length)) ∧
    (∃ executed, script = executed ++ s.script ∧
      s.loggedTasks + s.inFlight + ↑s.pending = ↑(scheduledTasks emptyVectors executed)) ∧
    (s.returned = true → s.loggedTasks = ↑(scheduledTasks emptyVectors script) ∧
      ∀ a d, s.fs.content (logFile dir a d) = linesFor s.left a d) := by
  have hlog := reachable_logInv hdir hempty hr
  have htask := reachable_taskInv hr
  obtain ⟨executed, hscript, -, hcons⟩ := htask.conserved
  refine ⟨hlog.content, fun a d => hlog.partialLine_prefix, ?_, ⟨executed, hscript, hcons⟩, ?_⟩
  · intro r hr
    obtain ⟨before, after, hsplit, hbound⟩ := htask.logged_scheduled hr
    refine ⟨logLine_one_break _ _ _, before, after, hsplit, hbound, ?_⟩
    intro hlt
    rw [Record.line, firstField_logLine, intOfSize_of_lt hlt]
    rfl
  · intro hret
    refine ⟨htask.all_logged hret, fun a d => ?_⟩
    have hfree := hlog.free_of_idle (htask.finished hret).2.2
    rw [hlog.content a d, World.partialLine, hfree, List.append_nil]

/-- `main` scheduling a vector, growing it and scheduling it again. -/
def growing : List MainAct :=
  [.pushBack .random 2, .schedule .heapSort .random, .pushBack .random 1,
    .schedule .heapSort .random]

/-- Two workers at once. The vector has grown before the first task is taken,
and the worker with the longer copy logs first, its line in two pieces. -/
def growingRun : List (Act 2) :=
  [.main, .main, .main, .fetch 0 0, .main, .fetch 1 0, .task 0 .construct, .task 1 .construct,
    .task 0 (.startClock 0), .task 1 (.startClock 3), .task 1 (.compare 1 2),
    .task 0 (.stopClock 5), .task 1 (.stopClock 9), .task 1 .count, .task 1 .lock,
    .task 0 .count, .task 1 .makeDir, .task 1 .openFile, .task 1 (.write 2), .task 1 (.write 4),
    .task 1 .unlock, .task 0 .lock, .task 0 .makeDir, .task 0 .openFile, .task 0 (.write 6),
    .task 0 .unlock, .ret]

/-- The theorem on the end of that run: each line has the size of the task's
own copy. -/
theorem log_files_exact_growing :
    ∃ s, run (step []) (World.init 2 growing FileSystem.empty) growingRun = some s ∧
      s.fs.content (logFile [] .heapSort .random) = "2 6 1\n1 5 0\n".toList ∧
      s.loggedTasks = ↑(scheduledTasks emptyVectors growing) ∧
      ∀ a d, s.fs.content (logFile [] a d) = linesFor s.left a d := by
  have hrun : (run (step []) (World.init 2 growing FileSystem.empty) growingRun).map
      (fun s => (s.returned, s.fs.content (logFile [] .heapSort .random)))
        = some (true, "2 6 1\n1 5 0\n".toList) := rfl
  obtain ⟨s, hs, h⟩ := Option.map_eq_some_iff.mp hrun
  rw [Prod.mk.injEq] at h
  exact ⟨s, hs, h.2, (log_files_exact rfl (fun _ => rfl) ⟨_, hs⟩).2.2.2.2 h.1⟩

/-! ## A run with one task -/

/-- One worker and one task on an empty vector, up to the moment when the
whole line is in the file and the mutex is still held. -/
def oneTaskUpToWrite : List (Act 1) :=
  [.main, .fetch 0 0, .task 0 .construct, .task 0 (.startClock 0), .task 0 (.stopClock 0),
    .task 0 .count, .task 0 .lock, .task 0 .makeDir, .task 0 .openFile, .task 0 (.write 6)]

/-- From any vectors, one scheduled task can be logged: the state in which it
has left the critical section, with zero clock readings and no comparisons. -/
theorem one_task_logged (data : Vectors) :
    ∃ s, Reachable (step [])
        { World.init 1 [.schedule .heapSort .random] FileSystem.empty with data := data } s ∧
      s.left = [⟨⟨.heapSort, data .random, .random⟩, 0, 0, 0⟩] := by
  let r : Record := ⟨⟨.heapSort, data .random, .random⟩, 0, 0, 0⟩
  have hrun : (run (step [])
      { World.init 1 [.schedule .heapSort .random] FileSystem.empty with data := data }
      (oneTaskUpToWrite.take 9)).map (fun s => (s.worker 0, s.left))
        = some (.inLog r (.writing [] r.line), []) := rfl
  obtain ⟨s, hs, hw⟩ := Option.map_eq_some_iff.mp hrun
  rw [Prod.mk.injEq] at hw
  have hpos : 0 < r.line.length ∧ r.line.length ≤ r.line.length := by
    refine ⟨?_, Nat.le_refl _⟩
    obtain ⟨body, hbody, -⟩ := logLine_one_break (intOfSize r.task.data.length)
      (unsignedOfMicros r.micros) r.counted
    rw [Record.line, hbody, List.length_append, List.length_singleton]
    omega
  have hwrite : step [] s (.task 0 (.write r.line.length)) = some
      { s.at 0 (.inLog r (.writing r.line [])) with
        fs := s.fs.append (r.file []) r.line } := by
    simp only [step, taskStep, hw.1, if_pos hpos, List.take_length, List.drop_length,
      List.nil_append]
  have hunlock : step [] { s.at 0 (.inLog r (.writing r.line [])) with
        fs := s.fs.append (r.file []) r.line } (.task 0 .unlock) = some
      { (s.at 0 (.inLog r (.writing r.line []))).at 0 .idle with
        fs := s.fs.append (r.file []) r.line, logMutex := none, left := s.left ++ [r] } := by
    simp only [step, taskStep, at_worker_self]
    rfl
  refine ⟨_, (Reachable.step (Reachable.step ⟨_, hs⟩ hwrite) hunlock), ?_⟩
  show s.left ++ [r] = [r]
  rw [hw.2, List.nil_append]

/-- `main` filling a vector, whatever comes after it. -/
theorem pushes_reach (x : Int) (rest : List MainAct) (fs : FileSystem Char) :
    ∀ (k : Nat) (data : Vectors),
      ∃ data', Reachable (step dir)
          { World.init n (List.replicate k (.pushBack .random x) ++ rest) fs with data := data }
          { World.init n rest fs with data := data' } ∧
        (data' .random).length = (data .random).length + k := by
  intro k
  induction k with
  | zero => exact fun data => ⟨data, Reachable.refl _ _, rfl⟩
  | succ k ih =>
    intro data
    obtain ⟨data', hreach, hlen⟩ := ih (MainAct.vectors data (.pushBack .random x))
    refine ⟨data', Reachable.trans (Reachable.step (Reachable.refl _ _) (a := .main) rfl)
      hreach, ?_⟩
    rw [hlen, MainAct.vectors, Function.update_self, List.length_append, List.length_singleton]
    omega

/-- Two states that are not as one might expect. While a task is still inside
the critical section its whole line can already be in the file; and a vector
of `2^31` elements is logged with the size `-2147483648`. -/
theorem log_files_early_and_negative :
    (∃ s : World 1, Reachable (step [])
        (World.init 1 [.schedule .heapSort .random] FileSystem.empty) s ∧ s.left = [] ∧
      s.fs.content (logFile [] .heapSort .random) = "0 0 0\n".toList) ∧
    ∃ s : World 1, Reachable (step [])
        (World.init 1 (List.replicate (2 ^ 31) (.pushBack .random 0)
          ++ [.schedule .heapSort .random]) FileSystem.empty) s ∧
      ∃ r ∈ s.left, r.task.data.length = 2 ^ 31 ∧
        firstField r.line = "-2147483648".toList := by
  constructor
  · have hrun : (run (step []) (World.init 1 [.schedule .heapSort .random] FileSystem.empty)
        oneTaskUpToWrite).map
          (fun s => (s.left, s.fs.content (logFile [] .heapSort .random)))
        = some ([], "0 0 0\n".toList) := rfl
    obtain ⟨s, hs, h⟩ := Option.map_eq_some_iff.mp hrun
    rw [Prod.mk.injEq] at h
    exact ⟨s, ⟨_, hs⟩, h.1, h.2⟩
  · obtain ⟨data, hfill, hlen⟩ := @pushes_reach 1 [] 0
      [.schedule .heapSort .random] FileSystem.empty (2 ^ 31) emptyVectors
    obtain ⟨s, hrun, hleft⟩ := one_task_logged data
    refine ⟨s, hfill.trans hrun, _, by rw [hleft]; exact List.mem_singleton_self _, ?_, ?_⟩
    · rw [hlen]
      rfl
    · rw [Record.line, firstField_logLine]
      show decimalInt (intOfSize (data .random).length) = _
      rw [hlen]
      rfl

end Satf.Measure
