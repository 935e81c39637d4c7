import Kimojio.Runtime.TaskStateCell

/-!
# Kimojio.Runtime.Borrows

When the task state is borrowed twice.

Every operation of the runtime runs with the state borrowed or without, and
leaves it in one of the two modes (`Op.runs`). Each is made of operations that
fit together (`Op.react_runs`), so a thread never borrows the state twice, with
two exceptions: `wake_task` of a waker that is not the runtime's own, and the
drop of the last reference to a task whose output runs the user's code, while
the state is borrowed. The first happens in `io_scope_cancel` and at the end of
an `io_scope`, to any wait that was polled with such a waker.
-/

namespace Kimojio.TaskStateCell

/-! ## Modes -/

namespace Op

/-- The mode in which an operation runs, and the one that it leaves; the mode is
whether the state is borrowed. -/
def runs (borrowed : Bool) : Op → Option Bool
  | .borrow | .polling _ => if borrowed then none else some true
  | .release | .loop | .shutdownTask _ | .takeState | .install _ | .installGuard _ | .advance _ =>
    if borrowed then some false else none
  | .cloneTask _ | .dropTask _ | .dropWait _ => some borrowed
  | .user | .wakeByRef _ | .wake _ | .notify _ | .wakeOne _ | .wakeAll _ | .scopeBody .. =>
    if borrowed then none else some false
  | _ => if borrowed then some true else none

/-- No code of the user runs while the state is borrowed: not through a waker that
is not the runtime's own, and not in the destructor of a task's output. -/
def safe (w : World) (borrowed : Bool) : Op → Bool
  | .wakeTask waker => !waker.foreign
  | .dropTask t => !borrowed || 1 < w.tasks.strongCount t || (w.output t).freed.isEmpty
  | _ => true

end Op

/-- The step runs no code of the user while the state is borrowed. -/
def safe (s : Thread) (_ : Label) : Bool :=
  match s.control with
  | [] => true
  | op :: _ => op.safe s.world s.borrowed

/-! ## The operations fit together -/

section

variable {m : Bool} {w : World}

theorem runsAll_dropTasks (ts : List Nat) : runsAll Op.runs m (ts.map .dropTask) = some m :=
  runsAll_map (fun _ => rfl) ts

theorem runsAll_dropWaits (xs : List Nat) : runsAll Op.runs m (xs.map .dropWait) = some m :=
  runsAll_map (fun _ => rfl) xs

theorem Output.freed_runs (output : Output) : runsAll Op.runs false output.freed = some false := by
  unfold Output.freed
  split <;> rfl

/-- What is dropped with a task runs in the mode in which its output is dropped. -/
theorem Task.freed_runs {task : Task} (h : runsAll Op.runs m task.output.freed = some m) :
    runsAll Op.runs m task.freed = some m := by
  unfold Task.freed
  rw [runsAll_append, runsAll_append, h]
  simp only [Option.bind_some, runsAll_dropWaits]

theorem dropTask_runs (hsafe : (Op.dropTask t).safe w m = true) :
    runsAll Op.runs m ((Op.dropTask t).exec w).2 = some m := by
  show runsAll Op.runs m (if w.tasks.strongCount t ≤ 1 then
    ((w.tasks.get t).map Task.freed).getD [] else []) = some m
  split
  · next hlast =>
    cases hget : w.tasks.get t with
    | none => rfl
    | some task =>
      apply Task.freed_runs
      cases m with
      | false => exact task.output.freed_runs
      | true =>
        have houtput : w.output t = task.output := by rw [World.output, hget]; rfl
        have hfreed : task.output.freed = [] := by
          simpa [Op.safe, houtput, Nat.not_lt.mpr hlast] using hsafe
        rw [hfreed]
        rfl
  · rfl

theorem dropWait_runs (x : Nat) : runsAll Op.runs m ((Op.dropWait x).exec w).2 = some m := by
  show runsAll Op.runs m (if w.waits.strongCount x ≤ 1 then
    ((w.waits.get x).map fun data => [Op.dropTask data.waker.task]).getD [] else []) = some m
  split
  · cases w.waits.get x <;> rfl
  · rfl

theorem schedule_runs (t : Nat) (push : World → World) :
    runsAll Op.runs true (schedule t push w).2 = some true := by
  unfold schedule
  split <;> rfl

theorem abort_runs (t : Nat) : runsAll Op.runs true (abort t w).2 = some true := by
  unfold abort
  split <;> rfl

theorem wakeFirst_runs (h : runsAll Op.runs false again = some false) (source : Source) :
    runsAll Op.runs false (wakeFirst source again w).2 = some false := by
  unfold wakeFirst
  split
  · rfl
  · exact h

theorem pollRingFuture_runs (c : Nat) (waker : Waker) :
    runsAll Op.runs true (pollRingFuture c waker w).2 = some true := by
  unfold pollRingFuture
  split
  · rfl
  · split
    · rfl
    · split <;> rfl
    · rfl
    · rfl

/-- The completions of a scope that is left or canceled. -/
theorem runsAll_cancels (cs : List Nat) : runsAll Op.runs true (cs.map .cancel) = some true :=
  runsAll_map (fun _ => rfl) cs

theorem gather_runs (outer : Option Scope) :
    runsAll Op.runs true ((Op.gather outer).exec w).2 = some true := by
  simp only [Op.exec]
  split
  · rfl
  · next scope _ =>
    have hrest : runsAll Op.runs true (scope.completions.map Op.cancel ++
        [Op.drainWaits scope.waits, .waitGathered scope.completions]) = some true := by
      rw [runsAll_append, runsAll_cancels]
      rfl
    exact hrest

theorem cancelScope_runs : runsAll Op.runs true (Op.cancelScope.exec w).2 = some true := by
  simp only [Op.exec]
  split
  · rfl
  · rw [runsAll_append, runsAll_cancels]
    rfl

theorem drainWaits_runs (waits : List Nat) :
    runsAll Op.runs true ((Op.drainWaits waits).exec w).2 = some true := by
  cases waits with
  | nil => rfl
  | cons x xs =>
    show runsAll Op.runs true (((w.waits.get x).map fun data => [Op.wakeTask data.waker]).getD [] ++
      [Op.dropWait x, .drainWaits xs]) = some true
    cases w.waits.get x <;> rfl

theorem clearCompleted_runs : runsAll Op.runs true (Op.clearCompleted.exec w).2 = some true := by
  simp only [Op.exec]
  split
  · rfl
  · have hdrops : runsAll Op.runs false (w.completedTasks.map Op.dropTask ++ [Op.borrow]) =
        some true := by
      rw [runsAll_append, runsAll_dropTasks]
      rfl
    exact hdrops

theorem pollTask_runs (t : Nat) : runsAll Op.runs true ((Op.pollTask t).exec w).2 = some true := by
  show runsAll Op.runs true (if w.ready t = .complete then (w, [Op.dropTask t])
    else ({ w with currentTask := some t },
      [Op.cloneTask t, .release, .cloneTask t, .polling t])).2 = some true
  split <;> rfl

theorem shutdownTask_runs (t : Nat) :
    runsAll Op.runs true ((Op.shutdownTask t).exec w).2 = some false := by
  have hfreed := (w.output t).freed_runs
  show runsAll Op.runs true ([Op.cloneTask t, .release] ++ (w.output t).freed ++
    [Op.borrow, .clearCurrent, .release]) = some false
  rw [runsAll_append, runsAll_append]
  show ((runsAll Op.runs false (w.output t).freed).bind _) = some false
  rw [hfreed]
  rfl

theorem waitRing_runs (c : Nat) : runsAll Op.runs true ((Op.waitRing c).exec w).2 = some true := by
  simp only [Op.exec]
  split <;> rfl

theorem waitGathered_runs (cs : List Nat) :
    runsAll Op.runs true ((Op.waitGathered cs).exec w).2 = some true := by
  show runsAll Op.runs true (if cs.any w.isPending then
    [Op.completeAll, .waitGathered cs] else []) = some true
  split <;> rfl

theorem advance_runs (now : Nat) : runsAll Op.runs true ((Op.advance now).exec w).2 = some false :=
  runsAll_map (f := fun timer : Timer => Op.wake timer.waker) (fun _ => rfl) (w.expired now)

end

/-! ## Calls of the user -/

section

variable {w : World}

theorem unregisterCanceledWait_runs (x : Nat) (data : WaitData) (isSet : Bool) :
    runsAll Op.runs false (unregisterCanceledWait x data isSet w).2 = some false := by
  unfold unregisterCanceledWait
  simp only
  split
  · rfl
  · split <;> split <;> rfl

theorem pollWaitFuture_runs (x : Nat) (data : WaitData) (waker : Waker) (isSet : Bool) :
    runsAll Op.runs false (pollWaitFuture x data waker isSet w).2 = some false := by
  unfold pollWaitFuture
  split
  · exact unregisterCanceledWait_runs x data isSet
  · repeat' split
    all_goals rfl

theorem inTask_runs (h : runsAll Op.runs false ops = some false) :
    runsAll Op.runs false (inTask ops w).2 = some false := by
  unfold inTask
  simp only
  split
  · exact h
  · rfl

/-- **Calls**: a function of the runtime is called with the state free, and
leaves it free. -/
theorem Call.exec_runs {c : Call} (h : c.exec w = some r) :
    runsAll Op.runs false r.2 = some false := by
  cases c with
  | touch | spawnTask | cancelRing | dropRing | submit | wakeAll | ioScope | cancelTimer
    | virtualClockAdvance | virtualClockDisable =>
      cases h
      rfl
  | clone | drop | wake | wakeByRef | result | abort =>
    obtain ⟨-, rfl⟩ := Option.ite_some_none_eq_some.mp h
    rfl
  | newRing | ioScopeCancel =>
    cases h
    exact inTask_runs rfl
  | pollRing | pollScope =>
    obtain ⟨-, rfl⟩ := Option.ite_some_none_eq_some.mp h
    exact inTask_runs rfl
  | newWait source waker isSet =>
    obtain ⟨-, h⟩ := Option.ite_none_left_eq_some.mp h
    split at h
    · cases h
      rfl
    · split at h
      · cases h
        rfl
      · split at h <;> cases h <;> rfl
  | pollWait x waker isSet =>
    obtain ⟨-, h⟩ := Option.ite_none_right_eq_some.mp h
    obtain ⟨data, _, rfl⟩ := Option.map_eq_some_iff.mp h
    exact pollWaitFuture_runs x data waker isSet
  | dropWait x isSet =>
    obtain ⟨-, h⟩ := Option.ite_none_right_eq_some.mp h
    obtain ⟨data, _, rfl⟩ := Option.map_eq_some_iff.mp h
    exact unregisterCanceledWait_runs x data isSet
  | setWakeN e count =>
    cases h
    apply runsAll_keeps
    intro op hop
    rw [List.eq_of_mem_replicate hop]
    rfl
  | yieldIo | yieldCpu =>
    obtain ⟨-, h⟩ := Option.ite_none_left_eq_some.mp h
    split at h
    · cases h
      rfl
    · cases h
      exact inTask_runs rfl
  | dropScope i =>
    obtain ⟨s, _, rfl⟩ := Option.map_eq_some_iff.mp h
    split
    · rfl
    · split
      · rfl
      · exact runsAll_dropWaits s.waits
  | registerTimer last deadline waker =>
    obtain ⟨-, rfl⟩ := Option.ite_some_none_eq_some.mp h
    cases last <;> rfl

end

/-! ## Steps -/

section

variable {op : Op} {w : World} {a : Label} {m m' : Bool}

/-- The operations that are executed, without a decision of the environment. -/
def Op.isExecuted : Op → Bool
  | .borrow | .release => false
  | .user | .polling _ | .scopeBody .. | .complete | .pollReady | .loop => false
  | _ => true

theorem Op.react_executed (h : op.isExecuted = true) :
    op.react w a = if a = .step then some (op.exec w) else none := by
  cases op <;> first | rfl | cases h

/-- What an operation consists of leads to the mode that the operation leaves. -/
theorem Op.exec_runs (h : op.isExecuted = true) (hsafe : op.safe w m = true)
    (hm : op.runs m = some m') : runsAll Op.runs m (op.exec w).2 = some m' := by
  cases op with
  | borrow | release | user | polling | scopeBody | complete | pollReady | loop => cases h
  | cloneTask =>
    cases hm
    rfl
  | dropTask =>
    cases hm
    exact dropTask_runs hsafe
  | dropWait =>
    cases hm
    exact dropWait_runs _
  | wakeTask waker =>
    cases m <;> cases hm
    obtain ⟨t, foreign⟩ := waker
    cases foreign with
    | true => cases hsafe
    | false => rfl
  | notify x =>
    cases m <;> cases hm
    show runsAll Op.runs false
      (((w.waits.get x).map fun data => [Op.wakeByRef data.waker]).getD []) = some false
    cases w.waits.get x <;> rfl
  | wakeOne | wakeAll =>
    cases m <;> cases hm
    exact wakeFirst_runs rfl _
  | scheduleIo | scheduleCpu =>
    cases m <;> cases hm
    exact schedule_runs _ _
  | abortTask =>
    cases m <;> cases hm
    exact abort_runs _
  | clearCompleted =>
    cases m <;> cases hm
    exact clearCompleted_runs
  | pollTask =>
    cases m <;> cases hm
    exact pollTask_runs _
  | clearCurrent =>
    cases m <;> cases hm
    exact runsAll_dropTasks _
  | shutdownTask =>
    cases m <;> cases hm
    exact shutdownTask_runs _
  | takeState =>
    cases m <;> cases hm
    exact runsAll_dropTasks w.references
  | pollRing =>
    cases m <;> cases hm
    exact pollRingFuture_runs _ _
  | waitRing =>
    cases m <;> cases hm
    exact waitRing_runs _
  | gather =>
    cases m <;> cases hm
    exact gather_runs _
  | cancelScope =>
    cases m <;> cases hm
    exact cancelScope_runs
  | drainWaits =>
    cases m <;> cases hm
    exact drainWaits_runs _
  | waitGathered =>
    cases m <;> cases hm
    exact waitGathered_runs _
  | yieldIo | yieldCpu =>
    cases m <;> cases hm
    exact runsAll_flatMap (fun _ => rfl) _
  | cancelTimer | clearTimers =>
    cases m <;> cases hm
    exact runsAll_map (fun _ => rfl) _
  | advance =>
    cases m <;> cases hm
    exact advance_runs _
  | _ =>
    cases m <;> cases hm
    rfl

/-- The user's code goes on after a call. -/
theorem runsAll_call {c : Call} (hop : op.runs false = some m')
    (h : (c.exec w).map (fun r => (r.1, r.2 ++ [op])) = some r') :
    runsAll Op.runs false r'.2 = some m' := by
  obtain ⟨r, hcall, rfl⟩ := Option.map_eq_some_iff.mp h
  rw [runsAll_append, Call.exec_runs hcall, Option.bind_some, runsAll_cons, hop]
  rfl

theorem shutdown_runs (table : List Nat) : runsAll Op.runs true (shutdown table) = some false := by
  have hclones : runsAll Op.runs true (table.map .cloneTask) = some true :=
    runsAll_map (fun _ => rfl) table
  have hfutures : runsAll Op.runs false
      (table.flatMap fun t => [.borrow, .shutdownTask t]) = some false :=
    runsAll_flatMap (fun _ => rfl) table
  unfold shutdown
  rw [runsAll_append, runsAll_append, runsAll_append, runsAll_append, hclones]
  show (((runsAll Op.runs false _).bind _).bind _) = some false
  rw [hfutures, Option.bind_some, runsAll_dropTasks]
  rfl

/-- **Steps**: whatever the environment decides, an operation is replaced by
operations that lead to the mode that it leaves. -/
theorem Op.react_runs (hborrow : op ≠ .borrow) (hrelease : op ≠ .release)
    (hsafe : op.safe w m = true) (hm : op.runs m = some m') (h : op.react w a = some r) :
    runsAll Op.runs m r.2 = some m' := by
  by_cases hexec : op.isExecuted = true
  · rw [Op.react_executed hexec] at h
    obtain ⟨-, rfl⟩ := Option.ite_some_none_eq_some.mp h
    exact Op.exec_runs hexec hsafe hm
  · cases op with
    | user =>
      cases m <;> cases hm
      simp only [Op.react] at h
      split at h
      · exact runsAll_call rfl h
      · cases h
        rfl
      · cases h
    | polling t =>
      cases m <;> cases hm
      obtain ⟨-, h⟩ := Option.ite_none_right_eq_some.mp h
      split at h
      · exact runsAll_call rfl h
      · cases h
        rfl
      · cases h
        rfl
      · cases h
    | scopeBody i outer =>
      cases m <;> cases hm
      simp only [Op.react] at h
      split at h
      · exact runsAll_call rfl h
      · cases h
        rfl
      · cases h
        rfl
      · cases h
    | complete =>
      cases m <;> cases hm
      simp only [Op.react] at h
      split at h
      · split at h
        · cases h
          rfl
        · cases h
      · cases h
        rfl
      · cases h
    | pollReady =>
      cases m <;> cases hm
      simp only [Op.react] at h
      split at h
      · split at h <;> cases h
        rfl
      · split at h <;> cases h
        rfl
      · cases h
        rfl
      · cases h
    | loop =>
      cases m <;> cases hm
      simp only [Op.react] at h
      split at h
      · cases h
        rfl
      · cases h
        rfl
      · cases h
        exact shutdown_runs w.table
      · cases h
    | borrow => exact absurd rfl hborrow
    | release => exact absurd rfl hrelease
    | _ => exact absurd rfl hexec

end

/-! ## Runs -/

namespace Thread

/-- What is still to be done can be done from the mode that the thread is in. -/
def Fits (s : Thread) : Prop := Runs Op.runs s.borrowed s.control

theorem fits_new : Thread.new.Fits := rfl

theorem Fits.next (h : s.Fits) (hsafe : safe s a = true) (hs : s.next a = some s') : s'.Fits := by
  obtain ⟨w, m, control⟩ := s
  cases control with
  | nil => cases hs
  | cons op rest =>
    obtain ⟨m', hm, hrest⟩ := Runs.head h
    by_cases hborrow : op = .borrow
    · subst hborrow
      cases m <;> cases hm
      cases hs
      exact hrest
    · by_cases hrelease : op = .release
      · subst hrelease
        cases m <;> cases hm
        cases hs
        exact hrest
      · have hreact : (op.react w a).map (fun r => (⟨r.1, m, r.2 ++ rest⟩ : Thread)) = some s' := by
          rw [← hs]
          cases op <;> first | rfl | contradiction
        obtain ⟨r, hr, rfl⟩ := Option.map_eq_some_iff.mp hreact
        exact Runs.expand (Op.react_runs hborrow hrelease hsafe hm hr) hrest

theorem Fits.not_borrowsTwice {s : Thread} (h : s.Fits) : ¬ s.BorrowsTwice := by
  obtain ⟨w, m, control⟩ := s
  rintro ⟨hborrowed, hhead⟩
  cases control with
  | nil => cases hhead
  | cons op rest =>
    cases hhead
    cases hborrowed
    obtain ⟨_, hm, _⟩ := Runs.head h
    cases hm

end Thread

/-- **Single borrows**: a thread that runs no code of the user while the state is
borrowed never borrows it twice. -/
theorem not_borrowsTwice_of_safe (h : blockOn.Reaches (fun s a => safe s a = true) s) :
    ¬ s.BorrowsTwice := by
  have hfits : s.Fits := h.invariant (P := Thread.Fits) Thread.fits_new
    fun _ _ _ hfits hsafe hs => hfits.next hsafe hs
  exact hfits.not_borrowsTwice

/-- An output that runs code of the user when it is dropped with its task: that code
runs first. -/
theorem dropTask_exec_user (hlast : w.tasks.strongCount t ≤ 1)
    (houtput : (w.output t).freed.isEmpty = false) :
    ∃ ops, ((Op.dropTask t).exec w).2 = .user :: ops := by
  cases hget : w.tasks.get t with
  | none => simp [World.output, hget, Output.freed] at houtput
  | some task =>
    have hout : w.output t = task.output := by rw [World.output, hget]; rfl
    have hfreed : task.output.freed = [.user] := by
      unfold Output.freed at houtput ⊢
      split <;> simp_all
    refine ⟨task.joiningTasks.map Op.dropWait ++
      ((task.ioScopeCompletions.map Scope.waits).getD []).map Op.dropWait, ?_⟩
    show (if w.tasks.strongCount t ≤ 1 then ((w.tasks.get t).map Task.freed).getD [] else []) = _
    rw [if_pos hlast, hget]
    show task.output.freed ++ _ ++ _ = _
    rw [hfreed]
    rfl

/-- The test leaves nothing out: from a step that does not pass it, the thread can
come to borrow the state twice. -/
theorem exists_run_borrowsTwice (h : s.Fits) (hnot : safe s a = false) :
    ∃ labels s', blockOn.run s labels = some s' ∧ s'.BorrowsTwice := by
  obtain ⟨w, m, control⟩ := s
  cases control with
  | nil => cases hnot
  | cons op rest =>
    obtain ⟨m', hm, _⟩ := Runs.head h
    cases op with
    | wakeTask waker =>
      cases m <;> cases hm
      obtain ⟨t, foreign⟩ := waker
      cases foreign with
      | false => cases hnot
      | true => exact ⟨[.step, .step, .step], _, rfl, rfl, rfl⟩
    | dropTask t =>
      simp only [safe, Op.safe, Bool.or_eq_false_iff, Bool.not_eq_false',
        decide_eq_false_iff_not, Nat.not_lt] at hnot
      obtain ⟨⟨rfl, hlast⟩, houtput⟩ := hnot
      obtain ⟨ops, hops⟩ := dropTask_exec_user hlast houtput
      -- the user's code makes any call at all
      have hstep : blockOn.next ⟨w, true, .dropTask t :: rest⟩ .step =
          some ⟨((Op.dropTask t).exec w).1, true, .user :: ops ++ rest⟩ := by
        rw [← hops]
        rfl
      have hrun : blockOn.run ⟨w, true, .dropTask t :: rest⟩ [.step, .call .touch] =
          some ⟨((Op.dropTask t).exec w).1, true, .borrow :: .release :: .user :: ops ++ rest⟩ := by
        rw [System.run, hstep]
        rfl
      exact ⟨_, _, hrun, rfl, rfl⟩
    | _ => cases hnot

/-- **The condition is exact**: where a run first fails it, the state can be borrowed twice. -/
theorem borrowsTwice_of_not_safe (h : blockOn.Reaches (fun s a => safe s a = true) s)
    (hnot : safe s a = false) :
    ∃ labels s', blockOn.run s labels = some s' ∧ s'.BorrowsTwice :=
  exists_run_borrowsTwice (h.invariant (P := Thread.Fits) Thread.fits_new
    fun _ _ _ hfits hsafe hs => hfits.next hsafe hs) hnot

/-! ## Runs that borrow twice -/

/-- The step wakes no waker of the user's while the state is borrowed. -/
def wakesOwn (s : Thread) (_ : Label) : Bool :=
  match s.control with
  | .wakeTask waker :: _ => !waker.foreign
  | _ => true

/-- No I/O has ended. -/
def noCompletions : List Label := [.step, .noMore, .noMore, .step]

/-- `get_ready` takes a task, and its poll begins. -/
def polls (t : Nat) : List Label := .readyIo t :: List.replicate 4 .step

/-- The main task waits for an event in an `io_scope`, with the waker, and cancels
the scope, up to the wake of the wait. -/
def cancelsWait (waker : Waker) : List Label :=
  [Label.step, .iterate] ++ noCompletions ++ polls mainTask ++
    [Label.call .ioScope, .call (.pollScope 0), .step, .step, .step] ++
    Label.call (.newWait (.event 0) waker false) :: List.replicate 5 Label.step ++
    [Label.call .ioScopeCancel, .step] ++ noCompletions ++ [Label.step] ++ noCompletions ++
      [Label.step]

/-- The main task spawns a task and drops its handle. That task wakes itself in its
only poll, so it is in a ready list when it is complete and out of the table. -/
def dropsResult : List Label :=
  [Label.step, .iterate] ++ noCompletions ++ polls mainTask ++
    [Label.call .spawnTask, .step, .step, .step, .call (.drop 2), .step, .pending] ++
    List.replicate 5 Label.step ++ polls 2 ++
    Label.call (.wakeByRef ⟨2, false⟩) :: List.replicate 5 Label.step ++
    Label.ready true :: List.replicate 7 Label.step ++
    [Label.noReady, .iterate] ++ noCompletions ++ List.replicate 3 Label.step ++
    [Label.readyIo 2, .step, .step, .call .touch]

/-- A wait that was polled with a waker of the user's is woken while the state is
borrowed. -/
theorem exists_borrowsTwice : ∃ s, blockOn.Reaches (fun _ _ => True) s ∧ s.BorrowsTwice := by
  have hrun : (blockOn.run blockOn.start
      (cancelsWait ⟨mainTask, true⟩ ++ List.replicate 3 Label.step)).any
      (fun s => decide s.BorrowsTwice) = true := by decide +kernel
  obtain ⟨s, hs, htwice⟩ := System.exists_run hrun
  exact ⟨s, hs, of_decide_eq_true htwice⟩

/-- The scope is canceled while its wait has a waker of the user's. -/
theorem borrowsTwice_of_not_safe_cancel : ∃ s, blockOn.Reaches (fun s a => safe s a = true) s ∧
    safe s .step = false ∧ ∃ labels s', blockOn.run s labels = some s' ∧ s'.BorrowsTwice := by
  have hrun : ((blockOn.restrict safe).run blockOn.start (cancelsWait ⟨mainTask, true⟩)).any
      (fun s => safe s .step = false) = true := by decide +kernel
  obtain ⟨s, hs, hnot⟩ := System.exists_restrict_run hrun
  exact ⟨s, hs, of_decide_eq_true hnot, borrowsTwice_of_not_safe hs (of_decide_eq_true hnot)⟩

/-- The runtime's own wakers do not help where `poll_task` drops a complete task,
and with it a result that calls the runtime. -/
theorem exists_borrowsTwice_of_wakesOwn :
    ∃ s, blockOn.Reaches (fun s a => wakesOwn s a = true) s ∧ s.BorrowsTwice := by
  have hrun : ((blockOn.restrict wakesOwn).run blockOn.start dropsResult).any
      (fun s => decide s.BorrowsTwice) = true := by decide +kernel
  obtain ⟨s, hs, htwice⟩ := System.exists_restrict_run hrun
  exact ⟨s, hs, of_decide_eq_true htwice⟩

/-- The same wait with the runtime's own waker: the scope is canceled, and the user's
code may borrow the state again. -/
theorem not_borrowsTwice_cancel : ∃ s, blockOn.Reaches (fun s a => safe s a = true) s ∧
      s.control.head? = some .borrow ∧ ¬ s.BorrowsTwice := by
  have hrun : ((blockOn.restrict safe).run blockOn.start
      (cancelsWait ⟨mainTask, false⟩ ++ List.replicate 6 Label.step ++ [Label.call .touch])).any
      (fun s => decide (s.control.head? = some .borrow)) = true := by decide +kernel
  obtain ⟨s, hs, hborrow⟩ := System.exists_restrict_run hrun
  exact ⟨s, hs, of_decide_eq_true hborrow, not_borrowsTwice_of_safe hs⟩

end Kimojio.TaskStateCell
