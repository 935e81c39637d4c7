import Kimojio.Runtime.Scheduler

/-!
# Kimojio.Runtime.Places

Where each task stands: its future, its ready state, and how often it occurs in
the queues. `LoopMove` says once what a step of the event loop can do to the
places of the tasks; the invariants of the scheduler are proved from it, and do
not look at the model again.
-/

namespace Kimojio.Runtime

/-- Where a task stands. -/
structure Place where
  task : Option (TaskFuture × TaskReadyState)
  io : Nat
  cpu : Nat

/-- The place with another ready state. -/
def Place.setReady (p : Place) (state : TaskReadyState) : Place :=
  { p with task := p.task.map fun (f, _) => (f, state) }

namespace TaskState

/-- The place of task `i`; the two queues of I/O priority are counted together. -/
def place (s : TaskState) (i : Nat) : Place where
  task := (s.task i).map fun task => (task.activeState, task.ready)
  io := s.fillReadyTaskListIo.count i + s.readyTaskListIo.count i
  cpu := s.readyTaskListCpu.count i

theorem place_of_task {s : TaskState} {task : Task} (h : s.task i = some task) :
    ∃ io cpu, s.place i = ⟨some (task.activeState, task.ready), io, cpu⟩ :=
  ⟨_, _, by rw [place, h]; rfl⟩

/-- What a change of one task does to the places. -/
theorem task_modify (s : TaskState) (i : Nat) (f : Task → Task) (j : Nat) :
    { s with heap := s.heap.modify i f }.task j = if j = i then (s.task j).map f else s.task j := by
  unfold task
  by_cases h : j = i
  · simp [h]
  · simp [h, Ne.symm h]

theorem place_setState (s : TaskState) (i : Nat) (state : TaskReadyState) (j : Nat) :
    (s.setState i state).place j = if j = i then (s.place j).setReady state else s.place j := by
  unfold place setState
  rw [task_modify]
  split
  · cases s.task j <;> rfl
  · rfl

theorem place_scheduleIoInternal (s : TaskState) (i j : Nat) : (s.scheduleIoInternal i).place j =
      if j = i then { s.place j with io := (s.place j).io + 1 } else s.place j := by
  unfold scheduleIoInternal
  split <;> split <;> simp [place, task, List.count_append, List.count_singleton, *] <;> omega

theorem place_pushCpu (s : TaskState) (i j : Nat) :
    { s with readyTaskListCpu := s.readyTaskListCpu ++ [i] }.place j =
      if j = i then { s.place j with cpu := (s.place j).cpu + 1 } else s.place j := by
  split <;> simp [place, task, List.count_append, List.count_singleton, *]
  omega

end TaskState

/-! ## what the table says -/

/-- What the table says about a task: its index, and its future. -/
def TaskState.entry (s : TaskState) (i : Nat) : Option (UInt16 × TaskFuture) :=
  (s.task i).map fun task => (task.taskIndex, task.activeState)

/-- The table, and what it says about the tasks, are the same. -/
structure SameTable (s s' : TaskState) : Prop where
  tasks : s'.tasks = s.tasks
  taskCount : s'.taskCount = s.taskCount
  entry : ∀ i, s'.entry i = s.entry i

namespace SameTable

theorem refl (s : TaskState) : SameTable s s := ⟨rfl, rfl, fun _ => rfl⟩

theorem trans (h : SameTable s s') (h' : SameTable s' s'') : SameTable s s'' :=
  ⟨h'.tasks.trans h.tasks, h'.taskCount.trans h.taskCount, fun i => (h'.entry i).trans (h.entry i)⟩

/-- A task changes, but not its index or its future. -/
theorem modify (s : TaskState) (i : Nat)
    (hf : ∀ task, (f task).taskIndex = task.taskIndex ∧ (f task).activeState = task.activeState) :
    SameTable s { s with heap := s.heap.modify i f } where
  tasks := rfl
  taskCount := rfl
  entry j := by
    unfold TaskState.entry
    rw [TaskState.task_modify]
    split
    · cases s.task j with
      | none => rfl
      | some task => simp [hf task]
    · rfl

theorem setState (s : TaskState) (i : Nat) (state : TaskReadyState) :
    SameTable s (s.setState i state) :=
  modify s i fun _ => ⟨rfl, rfl⟩

theorem setCurrent (s : TaskState) (currentTask : Option Nat) :
    SameTable s { s with currentTask } :=
  ⟨rfl, rfl, fun _ => rfl⟩

theorem scheduleIoInternal (s : TaskState) (i : Nat) : SameTable s (s.scheduleIoInternal i) := by
  unfold TaskState.scheduleIoInternal
  split <;> exact ⟨rfl, rfl, fun _ => rfl⟩

end SameTable

/-! ## calls -/

/-- What a call can do to the place of a task: it is made, woken, yields or is
aborted. -/
inductive Called : Place → Place → Prop where
  | new : Called ⟨none, io, cpu⟩ ⟨some (.future, .ready), io + 1, cpu⟩
  | io : state = .running ∨ state = .suspend →
      Called ⟨some (f, state), io, cpu⟩ ⟨some (f, .ready), io + 1, cpu⟩
  | cpu : state = .running ∨ state = .suspend →
      Called ⟨some (f, state), io, cpu⟩ ⟨some (f, .ready), io, cpu + 1⟩
  | abortSuspend : Called ⟨some (f, .suspend), io, cpu⟩ ⟨some (f, .aborted), io + 1, cpu⟩
  | abortReady : Called ⟨some (f, .ready), io, cpu⟩ ⟨some (f, .aborted), io, cpu⟩

/-- A call changes the place of one task at most. -/
inductive Calls (s s' : TaskState) : Prop where
  | still : (∀ i, s'.place i = s.place i) → Calls s s'
  | one (i : Nat) : Called (s.place i) (s'.place i) → (∀ j, j ≠ i → s'.place j = s.place j) →
      Calls s s'

theorem Calls.place (h : Calls s s') (i : Nat) :
    s'.place i = s.place i ∨ Called (s.place i) (s'.place i) := by
  cases h with
  | still hsame => exact .inl (hsame i)
  | one j hcalled hsame =>
    by_cases hj : i = j
    · exact .inr (hj ▸ hcalled)
    · exact .inl (hsame i hj)

theorem Calls.refl (s : TaskState) : Calls s s := .still fun _ => rfl

namespace TaskState

theorem calls_scheduleIo {s s' : TaskState} (h : s.scheduleIo i = some s') :
    Calls s s' ∧ SameTable s s' := by
  obtain ⟨task, htask, h⟩ := Option.bind_eq_some_iff.mp h
  obtain ⟨io, cpu, hplace⟩ := place_of_task htask
  have hwoken (hready : task.ready = .running ∨ task.ready = .suspend) :
      Calls s ((s.setState i .ready).scheduleIoInternal i) := by
    refine .one i ?_ fun j hj => ?_
    · simp only [place_scheduleIoInternal, place_setState, if_true, hplace]
      exact .io hready
    · simp only [place_scheduleIoInternal, place_setState, if_neg hj]
  have hsame := (SameTable.setState s i .ready).trans (.scheduleIoInternal _ i)
  split at h <;> cases h
  · exact ⟨.refl s, .refl s⟩
  · next hready => exact ⟨hwoken (.inl hready), hsame⟩
  · next hready => exact ⟨hwoken (.inr hready), hsame⟩
  · exact ⟨.refl s, .refl s⟩
  · exact ⟨.refl s, .refl s⟩

theorem calls_scheduleCpu {s s' : TaskState} (h : s.scheduleCpu i = some s') :
    Calls s s' ∧ SameTable s s' := by
  obtain ⟨task, htask, h⟩ := Option.bind_eq_some_iff.mp h
  obtain ⟨io, cpu, hplace⟩ := place_of_task htask
  have hwoken (hready : task.ready = .running ∨ task.ready = .suspend) :
      Calls s { s.setState i .ready with
        readyTaskListCpu := (s.setState i .ready).readyTaskListCpu ++ [i] } := by
    refine .one i ?_ fun j hj => ?_
    · rw [place_pushCpu, if_pos rfl, place_setState, if_pos rfl, hplace]
      exact .cpu hready
    · rw [place_pushCpu, if_neg hj, place_setState, if_neg hj]
  have hsame := SameTable.setState s i .ready
  split at h <;> cases h
  · exact ⟨.refl s, .refl s⟩
  · next hready => exact ⟨hwoken (.inl hready), hsame.trans ⟨rfl, rfl, fun _ => rfl⟩⟩
  · next hready => exact ⟨hwoken (.inr hready), hsame.trans ⟨rfl, rfl, fun _ => rfl⟩⟩
  · exact ⟨.refl s, .refl s⟩
  · exact ⟨.refl s, .refl s⟩

theorem calls_abortTask {s s' : TaskState} (h : s.abortTask i = some s') :
    Calls s s' ∧ SameTable s s' := by
  unfold abortTask at h
  obtain ⟨task, htask, h⟩ := Option.bind_eq_some_iff.mp h
  obtain ⟨io, cpu, hplace⟩ := place_of_task htask
  have hsame := SameTable.setState s i .aborted
  split at h <;> cases h
  · next hready =>
    refine ⟨.one i ?_ fun j hj => ?_, hsame.trans (.scheduleIoInternal _ i)⟩
    · simp only [place_scheduleIoInternal, place_setState, if_true, hplace, hready]
      exact .abortSuspend
    · simp only [place_scheduleIoInternal, place_setState, if_neg hj]
  · exact ⟨.refl s, .refl s⟩
  · next hready =>
    refine ⟨.one i ?_ fun j hj => ?_, hsame⟩
    · rw [place_setState, if_pos rfl, hplace, hready]
      exact .abortReady
    · rw [place_setState, if_neg hj]
  · exact ⟨.refl s, .refl s⟩
  · exact ⟨.refl s, .refl s⟩

/-- A new task: its name is not used yet. -/
theorem calls_scheduleNew (h : s.scheduleNew = some s') : Calls s s' := by
  obtain ⟨⟨index, tasks⟩, hinsert, h⟩ := Option.bind_eq_some_iff.mp h
  have hget : tasks.get index = some s.heap.length := HandleTable.get_of_insertFn hinsert
  simp only [hget, Option.bind_eq_bind, Option.bind_some] at h
  cases h
  have hnew : ∀ j, ({ s with
      heap := s.heap ++ [Task.new (UInt16.ofNat index.get)]
      tasks
      taskCount := s.taskCount + 1 } : TaskState).place j =
      if j = s.heap.length then { s.place j with task := some (.future, .ready) }
      else s.place j := by
    intro j
    simp only [place, task, List.getElem?_append]
    split <;> split <;> simp_all [Task.new]
    omega
  refine .one s.heap.length ?_ fun j hj => ?_
  · rw [place_scheduleIoInternal, if_pos rfl, hnew, if_pos rfl]
    have hnone : (s.place s.heap.length).task = none := by simp [place, task]
    rcases hplace : s.place s.heap.length with ⟨t, io, cpu⟩
    rw [hplace] at hnone
    cases hnone
    exact .new
  · rw [place_scheduleIoInternal, if_neg hj, hnew, if_neg hj]

end TaskState

/-! ## taking a task from a queue -/

/-- What `get_ready` does to the task that it takes. -/
inductive Taken : Place → Place → Prop where
  | io : state ≠ .aborted → state ≠ .complete →
      Taken ⟨some (f, state), io + 1, cpu⟩ ⟨some (f, .running), io, cpu⟩
  | ioKept : state = .aborted ∨ state = .complete →
      Taken ⟨some (f, state), io + 1, cpu⟩ ⟨some (f, state), io, cpu⟩
  | cpu : state ≠ .aborted → Taken ⟨some (f, state), io, cpu + 1⟩ ⟨some (f, .running), io, cpu⟩
  | cpuAborted : Taken ⟨some (f, .aborted), io, cpu + 1⟩ ⟨some (f, .aborted), io, cpu⟩

namespace TaskState

theorem place_prepareCohort (s : TaskState) (i : Nat) : s.prepareCohort.place i = s.place i := by
  unfold prepareCohort
  split
  · next h => simp [place, task, h]
  · rfl

theorem sameTable_prepareCohort (s : TaskState) : SameTable s s.prepareCohort := by
  unfold prepareCohort
  split <;> exact ⟨rfl, rfl, fun _ => rfl⟩

theorem place_popIo {s : TaskState} (h : s.readyTaskListIo = i :: rest) (lastReadyCpu : Bool)
    (j : Nat) :
    s.place j =
      if j = i then { { s with readyTaskListIo := rest, lastReadyCpu }.place j with
        io := ({ s with readyTaskListIo := rest, lastReadyCpu }.place j).io + 1 }
      else { s with readyTaskListIo := rest, lastReadyCpu }.place j := by
  by_cases hj : j = i
  · subst hj
    simp only [place, task, h, List.count_cons_self, if_true, Nat.add_assoc]
  · simp only [place, task, h, List.count_cons_of_ne (Ne.symm hj), if_neg hj]

theorem place_popCpu {s : TaskState} (h : s.readyTaskListCpu = i :: rest) (lastReadyCpu : Bool)
    (j : Nat) :
    s.place j =
      if j = i then { { s with readyTaskListCpu := rest, lastReadyCpu }.place j with
        cpu := ({ s with readyTaskListCpu := rest, lastReadyCpu }.place j).cpu + 1 }
      else { s with readyTaskListCpu := rest, lastReadyCpu }.place j := by
  by_cases hj : j = i
  · subst hj
    simp only [place, task, h, List.count_cons_self, if_true]
  · simp only [place, task, h, List.count_cons_of_ne (Ne.symm hj), if_neg hj]

/-- At most one task is taken, and the table stays. -/
theorem getReady_taken {s s' : TaskState} (h : s.getReady = some (taken, s')) :
    SameTable s s' ∧ match taken with
      | none => ∀ i, s'.place i = s.place i
      | some i => Taken (s.place i) (s'.place i) ∧ ∀ j, j ≠ i → s'.place j = s.place j := by
  unfold getReady at h
  split at h
  · next k rest hq =>
    have hpop := place_popIo hq false
    obtain ⟨task, htask, h⟩ := Option.bind_eq_some_iff.mp h
    obtain ⟨io, cpu, hplace⟩ := place_of_task
      (s := { s with readyTaskListIo := rest, lastReadyCpu := false }) htask
    split at h
    · next hready =>
      cases h
      refine ⟨.trans ?_ (.setState _ k .running), ?_, fun j hj => ?_⟩
      · exact ⟨rfl, rfl, fun _ => rfl⟩
      · rw [place_setState, if_pos rfl, hpop, if_pos rfl, hplace]
        exact .io hready.1 hready.2
      · rw [place_setState, if_neg hj, hpop, if_neg hj]
    · next hready =>
      cases h
      refine ⟨⟨rfl, rfl, fun _ => rfl⟩, ?_, fun j hj => ?_⟩
      · rw [hpop, if_pos rfl, hplace]
        exact .ioKept (by cases hr : task.ready <;> simp_all)
      · rw [hpop, if_neg hj]
  · split at h
    · cases h
      exact ⟨⟨rfl, rfl, fun _ => rfl⟩, fun _ => rfl⟩
    · split at h
      · next k rest hq =>
        have hpop := place_popCpu hq true
        obtain ⟨task, htask, h⟩ := Option.bind_eq_some_iff.mp h
        obtain ⟨io, cpu, hplace⟩ := place_of_task
          (s := { s with readyTaskListCpu := rest, lastReadyCpu := true }) htask
        split at h
        · next hready =>
          cases h
          refine ⟨.trans ?_ (.setState _ k .running), ?_, fun j hj => ?_⟩
          · exact ⟨rfl, rfl, fun _ => rfl⟩
          · rw [place_setState, if_pos rfl, hpop, if_pos rfl, hplace]
            exact .cpu hready
          · rw [place_setState, if_neg hj, hpop, if_neg hj]
        · next hready =>
          cases h
          rw [Decidable.not_not] at hready
          refine ⟨⟨rfl, rfl, fun _ => rfl⟩, ?_, fun j hj => ?_⟩
          · rw [hpop, if_pos rfl, hplace, hready]
            exact .cpuAborted
          · rw [hpop, if_neg hj]
      · cases h
        exact ⟨⟨rfl, rfl, fun _ => rfl⟩, fun _ => rfl⟩

end TaskState

/-! ## what a step can do -/

/-- The place of task `i`. -/
def Loop.place (l : Loop) (i : Nat) : Place := l.state.place i

/-- Only task `i` changes its place. -/
def OnlyPlace (i : Nat) (l l' : Loop) : Prop := ∀ j, j ≠ i → l'.place j = l.place j

/-- What a step does to the places of the tasks, to the point of the loop and
to the history. Only a spawn and the end of a task change the table. -/
inductive LoopMove (l l' : Loop) : Label → Prop where
  | call : Calls l.state l'.state → l'.point = l.point → l'.history = l.history →
      (a ≠ .spawn → SameTable l.state l'.state) → LoopMove l l' a
  /-- A complete task is taken, and not polled. -/
  | stale (i : Nat) : l.point = .loop → Taken (l.place i) (l'.place i) →
      (l'.place i).task = some (f, .complete) → OnlyPlace i l l' → l'.point = .loop →
      l'.history = l.history → SameTable l.state l'.state → LoopMove l l' a
  | poll (i : Nat) : l.point = .loop → Taken (l.place i) (l'.place i) →
      (l'.place i).task = some (f, state) → state ≠ .complete → OnlyPlace i l l' →
      l'.point = (if f = .future then .polling i else .panicked .noFuture) →
      l'.history = l.history ++ [.polled i] → SameTable l.state l'.state → LoopMove l l' a
  | pending (i : Nat) : l.point = .polling i → (l.place i).task = some (f, state) →
      l'.place i = (l.place i).setReady (if state = .running then .suspend else state) →
      OnlyPlace i l l' → l'.point = .loop → l'.history = l.history →
      SameTable l.state l'.state → LoopMove l l' .pending
  | alreadyComplete (i : Nat) : l.point = .polling i → (l.place i).task = some (f, .complete) →
      OnlyPlace i l l' → l'.place i = { l.place i with task := some (.result, .complete) } →
      l'.point = .panicked .alreadyComplete → l'.history = l.history → LoopMove l l' .ready
  | ready (i : Nat) : l.point = .polling i → (l.place i).task = some (f, state) →
      state ≠ .complete → OnlyPlace i l l' →
      l'.place i = { l.place i with task := some (.result, .complete) } →
      l'.point = .completing i → l'.history = l.history ++ [.completed i] → LoopMove l l' .ready
  | completed (i : Nat) : l.point = .completing i → (∀ j, l'.place j = l.place j) →
      (l'.point = .loop ∨ ∃ p, p ≠ .noFuture ∧ p ≠ .alreadyComplete ∧ l'.point = .panicked p) →
      l'.history = l.history → LoopMove l l' .completed

namespace Loop

theorem update_eq_some {l l' : Loop} (h : l.update s = some l') :
    ∃ s', s = some s' ∧ l' = { l with state := s' } := by
  unfold update at h
  split at h
  · cases h
  · obtain ⟨s', hs, rfl⟩ := Option.map_eq_some_iff.mp h
    exact ⟨s', hs, rfl⟩

theorem move_update (h : l.update s = some l')
    (hcalls : ∀ s', s = some s' → Calls l.state s' ∧ SameTable l.state s') : LoopMove l l' a := by
  obtain ⟨s', hs, rfl⟩ := update_eq_some h
  exact .call (hcalls s' hs).1 rfl rfl fun _ => (hcalls s' hs).2

/-- A change of a task that its place does not show. -/
theorem place_modify (s : TaskState) (i : Nat)
    (hf : ∀ task, (f task).activeState = task.activeState ∧ (f task).ready = task.ready) (j : Nat) :
    { s with heap := s.heap.modify i f }.place j = s.place j := by
  unfold TaskState.place
  rw [TaskState.task_modify]
  split
  · cases s.task j with
    | none => rfl
    | some task => simp [hf task]
  · rfl

theorem move_yield (h : l.yield schedule = some l')
    (hcalls : ∀ i s', schedule l.state i = some s' → Calls l.state s' ∧ SameTable l.state s') :
    LoopMove l l' a := by
  obtain ⟨i, -, h⟩ := Option.bind_eq_some_iff.mp h
  obtain ⟨task, -, h⟩ := Option.bind_eq_some_iff.mp h
  split at h
  · refine move_update h ?_
    rintro _ ⟨⟩
    exact ⟨.refl _, .refl _⟩
  · exact move_update h (hcalls i)

theorem move_getReady (hloop : l.point = .loop) (h : l.getReady = some l') :
    LoopMove l l' a := by
  obtain ⟨⟨taken, s⟩, htaken, h⟩ := Option.bind_eq_some_iff.mp h
  obtain ⟨hsame, htaken⟩ := TaskState.getReady_taken htaken
  cases taken with
  | none =>
    cases h
    exact .call (.still htaken) rfl rfl fun _ => hsame
  | some i =>
    obtain ⟨hplace, hothers⟩ := htaken
    obtain ⟨task, htask, h⟩ := Option.bind_eq_some_iff.mp h
    obtain ⟨io, cpu, htaskPlace⟩ := TaskState.place_of_task htask
    split at h
    · next hcomplete =>
        cases h
        refine .stale (f := task.activeState) i hloop hplace ?_ hothers hloop rfl hsame
        exact hcomplete ▸ congrArg Place.task htaskPlace
    · next hcomplete =>
        revert h
        cases hactive : task.activeState <;> intro h <;> cases h
        · exact .poll (f := .future) i hloop hplace (hactive ▸ congrArg Place.task htaskPlace)
            hcomplete hothers rfl rfl (hsame.trans ⟨rfl, rfl, fun _ => rfl⟩)
        · exact .poll (f := .result) i hloop hplace (hactive ▸ congrArg Place.task htaskPlace)
            hcomplete hothers rfl rfl (hsame.trans ⟨rfl, rfl, fun _ => rfl⟩)

theorem move_pending (hpoint : l.point = .polling i) (h : l.pending i = some l') :
    LoopMove l l' .pending := by
  obtain ⟨task, htask, h⟩ := Option.bind_eq_some_iff.mp h
  obtain ⟨io, cpu, hplace⟩ := TaskState.place_of_task htask
  have hlowered := place_modify l.state i (f := fun t => { t with highPriority := false })
    fun _ => ⟨rfl, rfl⟩
  have hsame := SameTable.modify l.state i (f := fun t => { t with highPriority := false })
    fun _ => ⟨rfl, rfl⟩
  cases h
  refine .pending i hpoint (congrArg Place.task hplace) ?_ (fun j hj => ?_) rfl rfl ?_
  · simp only [place]
    split
    · exact (TaskState.place_setState _ i .suspend i).trans (by rw [if_pos rfl, hlowered])
    · refine (hlowered i).trans ?_
      rw [hplace]
      rfl
  · simp only [place]
    split
    · exact (TaskState.place_setState _ i .suspend j).trans (by rw [if_neg hj, hlowered])
    · exact hlowered j
  · refine .trans ?_ (.setCurrent _ none)
    split
    · exact hsame.trans (.setState _ i .suspend)
    · exact hsame

theorem move_ready (hpoint : l.point = .polling i) (h : l.ready i = some l') :
    LoopMove l l' .ready := by
  obtain ⟨task, htask, h⟩ := Option.bind_eq_some_iff.mp h
  obtain ⟨io, cpu, hplace⟩ := TaskState.place_of_task htask
  have hresult : ∀ j, { l.state with
      heap := l.state.heap.modify i fun t => { t with activeState := .result } }.place j =
      if j = i then { l.state.place j with task := some (.result, task.ready) }
      else l.state.place j := by
    intro j
    unfold TaskState.place
    rw [TaskState.task_modify]
    split
    · next hj => simp [hj, htask]
    · rfl
  split at h
  · next hcomplete =>
      cases h
      refine .alreadyComplete (f := task.activeState) i hpoint ?_ (fun j hj => ?_) ?_ rfl rfl
      · exact hcomplete ▸ congrArg Place.task hplace
      · exact (hresult j).trans (if_neg hj)
      · exact (hresult i).trans (by rw [if_pos rfl, hcomplete]; rfl)
  · next hcomplete =>
      cases h
      refine .ready i hpoint (congrArg Place.task hplace) hcomplete (fun j hj => ?_) ?_ rfl rfl
      · exact (TaskState.place_setState _ i .complete j).trans
          (by rw [if_neg hj, hresult, if_neg hj]; rfl)
      · exact (TaskState.place_setState _ i .complete i).trans
          (by rw [if_pos rfl, hresult, if_pos rfl]; rfl)

theorem move_completed (hpoint : l.point = .completing i) (h : l.completed i = some l') :
    LoopMove l l' .completed := by
  obtain ⟨task, htask, h⟩ := Option.bind_eq_some_iff.mp h
  split at h
  · cases h
    exact .completed i hpoint (fun _ => rfl) (.inr ⟨_, by simp, by simp, rfl⟩) rfl
  · split at h
    · cases h
      exact .completed i hpoint (fun _ => rfl) (.inr ⟨_, by simp, by simp, rfl⟩) rfl
    · dsimp only at h
      split at h
      · cases h
        exact .completed i hpoint (fun _ => rfl) (.inr ⟨_, by simp, by simp, rfl⟩) rfl
      · cases h
        exact .completed i hpoint (fun _ => rfl) (.inl rfl) rfl

/-- **Steps**: all that a step can do to the tasks. -/
theorem next_move (h : l.next a = some l') : LoopMove l l' a := by
  cases a with
  | spawn =>
    obtain ⟨s', hs, rfl⟩ := update_eq_some h
    exact .call (TaskState.calls_scheduleNew hs) rfl rfl (absurd rfl)
  | wake i => exact move_update h fun _ => TaskState.calls_scheduleIo
  | abort i => exact move_update h fun _ => TaskState.calls_abortTask
  | yieldIo => exact move_yield h fun _ _ => TaskState.calls_scheduleIo
  | yieldCpu => exact move_yield h fun _ _ => TaskState.calls_scheduleCpu
  | setHighPriority highPriority =>
    obtain ⟨i, -, h⟩ := Option.bind_eq_some_iff.mp h
    refine move_update h ?_
    rintro _ ⟨⟩
    exact ⟨.still (place_modify l.state i fun _ => ⟨rfl, rfl⟩), .modify _ i fun _ => ⟨rfl, rfl⟩⟩
  | prepareCohort =>
    obtain ⟨-, h⟩ := Option.ite_none_right_eq_some.mp h
    refine move_update h ?_
    rintro _ ⟨⟩
    exact ⟨.still l.state.place_prepareCohort, l.state.sameTable_prepareCohort⟩
  | getReady =>
    obtain ⟨hloop, h⟩ := Option.ite_none_right_eq_some.mp h
    exact move_getReady hloop h
  | pending =>
    rw [next] at h
    split at h
    · next hpoint => exact move_pending hpoint h
    · cases h
  | ready =>
    rw [next] at h
    split at h
    · next hpoint => exact move_ready hpoint h
    · cases h
  | completed =>
    rw [next] at h
    split at h
    · next hpoint => exact move_completed hpoint h
    · cases h
  | dropCompleted =>
    refine move_update h ?_
    rintro _ ⟨⟩
    exact ⟨.still fun _ => rfl, rfl, rfl, fun _ => rfl⟩

end Loop

end Kimojio.Runtime
