import Kimojio.Runtime.HandleTable
import Kimojio.Transition

/-!
# Kimojio.Runtime.Scheduler

Model of the task states and ready queues of `kimojio/src/task.rs`, and of
`poll_task` and the event loop of `kimojio/src/runtime.rs`.

A task is named by its position on the heap, which stands for its `Rc`. The
body of a task is not modelled: while a task is polled, any of the calls that a
body can make may happen, in any order and number, until the poll ends
(`Label`). A panic in a body is caught by `TaskFuture::poll`, so it is one way
for the poll to end with `Ready`. A panic outside a body ends the run
(`Point.panicked`).

The waker of a task calls `schedule_io`; the wakers that `joining_tasks` or a
completion queue entry hold may be of any kind, so what they do are labels of
their own. `history` only records what happened and is never read.
-/

namespace Kimojio.Runtime

inductive TaskReadyState where
  | unknown
  | ready
  | running
  | suspend
  | aborted
  | complete
  deriving DecidableEq, Repr

/-- A future that is being polled, or the result it returned. -/
inductive TaskFuture where
  | future
  | result
  deriving DecidableEq, Repr

structure Task where
  activeState : TaskFuture
  taskIndex : UInt16
  highPriority : Bool
  ready : TaskReadyState

/-- `Task::new` -/
def Task.new (taskIndex : UInt16) : Task := ⟨.future, taskIndex, false, .ready⟩

/-- The tasks of a thread and their readiness. -/
structure TaskState where
  heap : List Task
  taskCount : Nat
  lastReadyCpu : Bool
  currentTask : Option Nat
  fillReadyTaskListIo : List Nat
  readyTaskListIo : List Nat
  readyTaskListCpu : List Nat
  tasks : HandleTable Nat
  completedTasks : List Nat

namespace TaskState

/-- `TaskState::new` -/
def new : TaskState := ⟨[], 0, false, none, [], [], [], .new, []⟩

/-- The task, by its name. -/
def task (s : TaskState) (i : Nat) : Option Task := s.heap[i]?

def setState (s : TaskState) (i : Nat) (state : TaskReadyState) : TaskState :=
  { s with heap := s.heap.modify i fun task => { task with ready := state } }

/-- Whether the current task runs with high priority. -/
def highPriority (s : TaskState) : Bool :=
  match s.currentTask with
  | none => false
  | some i =>
    match s.task i with
    | none => false
    | some task => task.highPriority

def scheduleIoInternal (s : TaskState) (i : Nat) : TaskState :=
  if s.highPriority then { s with readyTaskListIo := s.readyTaskListIo ++ [i] }
  else { s with fillReadyTaskListIo := s.fillReadyTaskListIo ++ [i] }

/-- Makes a task, and schedules it. -/
def scheduleNew (s : TaskState) : Option TaskState := do
  let (index, tasks) ← s.tasks.insertFn fun _ => s.heap.length
  let task ← tasks.get index
  let s := { s with
    heap := s.heap ++ [Task.new (UInt16.ofNat index.get)]
    tasks
    taskCount := s.taskCount + 1 }
  return s.scheduleIoInternal task

def scheduleIo (s : TaskState) (i : Nat) : Option TaskState := do
  let task ← s.task i
  match task.ready with
  | .complete => return s
  | .running | .suspend => return (s.setState i .ready).scheduleIoInternal i
  | .ready | .aborted => return s
  | .unknown => none

def scheduleCpu (s : TaskState) (i : Nat) : Option TaskState := do
  let task ← s.task i
  match task.ready with
  | .complete => return s
  | .running | .suspend =>
    let s := s.setState i .ready
    return { s with readyTaskListCpu := s.readyTaskListCpu ++ [i] }
  | .ready | .aborted => return s
  | .unknown => none

/-- A running task that aborts itself only panics. -/
def abortTask (s : TaskState) (i : Nat) : Option TaskState := do
  let task ← s.task i
  match task.ready with
  | .suspend => return (s.setState i .aborted).scheduleIoInternal i
  | .running => return s
  | .ready => return s.setState i .aborted
  | .aborted => return s
  | .complete => return s
  | .unknown => none

def prepareCohort (s : TaskState) : TaskState :=
  if s.readyTaskListIo = [] then
    { s with
      readyTaskListIo := s.fillReadyTaskListIo
      fillReadyTaskListIo := s.readyTaskListIo }
  else s

/-- Takes the next task to poll. The two queues look at the state of their
task in different ways. -/
def getReady (s : TaskState) : Option (Option Nat × TaskState) :=
  match s.readyTaskListIo with
  | i :: rest => do
    let task ← s.task i
    let s := { s with readyTaskListIo := rest, lastReadyCpu := false }
    if task.ready ≠ .aborted ∧ task.ready ≠ .complete then
      return (some i, s.setState i .running)
    else return (some i, s)
  | [] =>
    if s.lastReadyCpu then some (none, { s with lastReadyCpu := false })
    else
      match s.readyTaskListCpu with
      | i :: rest => do
        let task ← s.task i
        let s := { s with readyTaskListCpu := rest, lastReadyCpu := true }
        if task.ready ≠ .aborted then return (some i, s.setState i .running)
        else return (some i, s)
      | [] => some (none, { s with lastReadyCpu := false })

end TaskState

/-! ## the event loop -/

/-- The panics outside the body of a task. -/
inductive Panic where
  /-- A future is polled that has a result. -/
  | noFuture
  /-- `complete_task` is called for a complete task. -/
  | alreadyComplete
  /-- `NonZeroUsize::new` of a zero index is unwrapped. -/
  | zeroIndex
  /-- `task_count` goes below zero. -/
  | taskCount
  /-- The task table panics. -/
  | table
  deriving DecidableEq, Repr

/-- Where the event loop is: between two polls, in a poll, or in `complete_task`
while it wakes the joining tasks. -/
inductive Point where
  | loop
  | polling (task : Nat)
  | completing (task : Nat)
  | panicked (panic : Panic)
  deriving DecidableEq, Repr

inductive Event where
  | polled (task : Nat)
  | completed (task : Nat)
  deriving DecidableEq, Repr

structure Loop where
  state : TaskState
  point : Point
  history : List Event

/-- What can happen. -/
inductive Label where
  /-- `spawn_task`, or one of the tasks of `block_on`. -/
  | spawn
  /-- The waker of a task is woken. -/
  | wake (task : Nat)
  /-- `TaskHandle::abort` -/
  | abort (task : Nat)
  /-- The current task polls a new `yield_io` future. -/
  | yieldIo
  /-- The current task polls a new `yield_cpu` future. -/
  | yieldCpu
  | setHighPriority (highPriority : Bool)
  | prepareCohort
  /-- `get_ready` and the begin of `poll_task`. -/
  | getReady
  /-- The poll ends with `Pending`. -/
  | pending
  /-- The poll ends with `Ready`, or by a panic of the body. -/
  | ready
  /-- The joining tasks are woken, and `complete_task` ends. -/
  | completed
  /-- The completed tasks are dropped. -/
  | dropCompleted
  deriving DecidableEq, Repr

namespace Loop

/-- The loop before the first task. -/
def new : Loop := ⟨.new, .loop, []⟩

/-- A call that the source makes with `TaskState` borrowed, wherever the loop is. -/
def update (l : Loop) (s : Option TaskState) : Option Loop :=
  match l.point with
  | .panicked _ => none
  | _ => s.map fun state => { l with state }

/-- `SetYieldCpuFuture::poll`: an aborted task panics before it is scheduled. -/
def yield (l : Loop) (schedule : TaskState → Nat → Option TaskState) : Option Loop := do
  let i ← l.state.currentTask
  let task ← l.state.task i
  if task.ready = .aborted then l.update (some l.state) else l.update (schedule l.state i)

/-- `poll_task`, up to the poll of the future. -/
def pollTask (l : Loop) (i : Nat) : Option Loop := do
  let task ← l.state.task i
  if task.ready = .complete then return l
  else
    let l := { l with
      state := { l.state with currentTask := some i }
      history := l.history ++ [Event.polled i] }
    match task.activeState with
    | .future => return { l with point := .polling i }
    | .result => return { l with point := .panicked .noFuture }

def getReady (l : Loop) : Option Loop := do
  let (ready, state) ← l.state.getReady
  let l := { l with state }
  match ready with
  | none => return l
  | some i => l.pollTask i

/-- `poll_task` after a poll that is pending. -/
def pending (l : Loop) (i : Nat) : Option Loop := do
  let task ← l.state.task i
  let state := { l.state with heap := l.state.heap.modify i fun t =>
    { t with highPriority := false } }
  let state := if task.ready = .running then state.setState i .suspend else state
  return { l with state := { state with currentTask := none }, point := .loop }

/-- `poll_task` after a poll that is ready, and `complete_task` up to the wakes. -/
def ready (l : Loop) (i : Nat) : Option Loop := do
  let task ← l.state.task i
  let state := { l.state with heap := l.state.heap.modify i fun t =>
    { t with activeState := .result } }
  if task.ready = .complete then return { l with state, point := .panicked .alreadyComplete }
  else
    return { l with
      state := state.setState i .complete
      point := .completing i
      history := l.history ++ [Event.completed i] }

/-- `complete_task` after the wakes. -/
def completed (l : Loop) (i : Nat) : Option Loop := do
  let task ← l.state.task i
  if h : task.taskIndex.toNat = 0 then return { l with point := .panicked .zeroIndex }
  else
    match l.state.tasks.remove ⟨task.taskIndex.toNat, Nat.pos_of_ne_zero h⟩ with
    | none => return { l with point := .panicked .table }
    | some (removed, tasks) =>
      let state := { l.state with
        tasks
        completedTasks := l.state.completedTasks ++ removed.toList }
      if state.taskCount = 0 then return { l with state, point := .panicked .taskCount }
      else
        return { l with
          state := { state with taskCount := state.taskCount - 1, currentTask := none }
          point := .loop }

/-- One thing happens. -/
def next (l : Loop) : Label → Option Loop
  | .spawn => l.update l.state.scheduleNew
  | .wake i => l.update (l.state.scheduleIo i)
  | .abort i => l.update (l.state.abortTask i)
  | .yieldIo => l.yield TaskState.scheduleIo
  | .yieldCpu => l.yield TaskState.scheduleCpu
  | .setHighPriority highPriority => do
    let i ← l.state.currentTask
    l.update (some { l.state with heap := l.state.heap.modify i fun t => { t with highPriority } })
  | .prepareCohort => if l.point = .loop then l.update (some l.state.prepareCohort) else none
  | .getReady => if l.point = .loop then l.getReady else none
  | .pending =>
    match l.point with
    | .polling i => l.pending i
    | _ => none
  | .ready =>
    match l.point with
    | .polling i => l.ready i
    | _ => none
  | .completed =>
    match l.point with
    | .completing i => l.completed i
    | _ => none
  | .dropCompleted => l.update (some { l.state with completedTasks := [] })

end Loop

/-- The event loop of a thread. -/
def eventLoop : System Loop Label where
  start := .new
  next := Loop.next

end Kimojio.Runtime
