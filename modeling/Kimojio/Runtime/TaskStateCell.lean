import Kimojio.Control
import Kimojio.RcHeap
import Kimojio.Runtime.Scheduler

/-!
# Kimojio.Runtime.TaskStateCell

The task state of a thread is borrowed by everything that the runtime does,
and the cell around it counts on nobody borrowing it twice: only a debug build
looks. So a function that has it must not run code that may ask for it again,
which is any code of the user: a waker that is not the runtime's own, and the
destructor of a task's result.

The model has the functions of the runtime as lists of operations, with the
places where they borrow the state, give it back, and run such code. What is
still to be done is the control. Where the user's code runs, the environment
says what it calls; a call puts its operations before the rest.

A task is freed with its last reference, and wakers are references: they are
counted as `Rc` counts them. References that only last for a part of a call,
to the task that is being polled, are left out.
-/

namespace Kimojio.TaskStateCell

open Kimojio.Runtime (TaskReadyState)

/-! ## The objects -/

/-- A waker of a task: the runtime's own, or one of the user's that has such a
waker and forwards to it. -/
structure Waker where
  task : Nat
  foreign : Bool
  deriving DecidableEq, Repr

/-- `TaskFuture`; of a result it is known whether its destructor calls the
runtime. -/
inductive Output where
  | future
  | result (calls : Bool)
  | taken
  deriving DecidableEq, Repr

/-- `IoScopeCompletions` -/
structure Scope where
  completions : List Nat
  waits : List Nat
  deriving DecidableEq, Repr

structure Task where
  ready : TaskReadyState
  output : Output
  joiningTasks : List Nat
  ioScopeCompletions : Option Scope

inductive CompletionState where
  | idle
  | submitted (waker : Waker)
  | completed
  | terminated
  deriving DecidableEq, Repr

/-- A drop of its future waits for the kernel unless the completion owns all
that the kernel uses. -/
structure Completion where
  state : CompletionState
  owned : Bool
  deriving DecidableEq, Repr

/-- What a wait is for: an event, or the end of a task. -/
inductive Source where
  | event (e : Nat)
  | task (t : Nat)
  deriving DecidableEq, Repr

/-- A wait that has been polled: the data that its future, the list of its
source and a scope share. -/
structure WaitData where
  waker : Waker
  canceled : Bool
  linked : Bool
  source : Source
  /-- The wait is over, and its future has given the source away. -/
  finished : Bool

/-- `VirtualTimer` -/
structure Timer where
  id : Nat
  deadline : Nat
  waker : Waker
  deriving DecidableEq, Repr

/-- The tasks of the thread, and what refers to them. -/
structure World where
  tasks : RcHeap Task
  nextTask : Nat
  /-- The indexes of `tasks`, the table of all tasks. -/
  table : List Nat
  /-- The ready lists; the environment says in which order they are taken. -/
  readyIo : List Nat
  readyCpu : List Nat
  completedTasks : List Nat
  currentTask : Option Nat
  completions : List Completion
  waits : RcHeap WaitData
  nextWait : Nat
  /-- The wait lists of the events. -/
  events : Nat → List Nat
  /-- The timers of the virtual clock. -/
  timers : List Timer
  nextTimer : Nat
  /-- The futures of `io_scope`. -/
  scopes : List (Option Scope)
  /-- The task handles and wakers that the user has. -/
  held : List Nat
  /-- The futures of waits that the user has. -/
  heldWaits : List Nat

/-! ## The operations -/

inductive Op where
  /-- `TaskState::get`, `borrow_mut` -/
  | borrow
  /-- The reference is dropped, or given up by `into_inner`. -/
  | release
  /-- The user's code runs. -/
  | user
  | cloneTask (t : Nat)
  | dropTask (t : Nat)
  | dropWait (x : Nat)
  | scheduleIo (t : Nat)
  | scheduleCpu (t : Nat)
  | abortTask (t : Nat)
  | wakeByRef (w : Waker)
  | wake (w : Waker)
  | wakeTask (w : Waker)
  /-- The waker of a wait is called. -/
  | notify (x : Nat)
  | wakeOne (source : Source)
  | wakeAll (source : Source)
  /-- The loop of `process_completions`. -/
  | complete
  | completeAll
  | clearCompleted
  /-- The loop of `block_on`. -/
  | loop
  | pollReady
  | pollTask (t : Nat)
  /-- The user's code runs, in the poll of a task. -/
  | polling (t : Nat)
  | removeTask (t : Nat)
  | clearCurrent
  /-- The end of `block_on`: a task's future is replaced and dropped. -/
  | shutdownTask (t : Nat)
  | takeState
  | spawn
  | newRing (owned : Bool)
  | pollRing (c : Nat) (w : Waker)
  | cancel (c : Nat)
  | waitRing (c : Nat)
  /-- The result of an I/O whose future is dropped. -/
  | abandon (c : Nat)
  | install (i : Nat)
  /-- The user's code runs, in the poll of an `io_scope`. -/
  | scopeBody (i : Nat) (outer : Option Scope)
  | uninstall (i : Nat) (outer : Option Scope)
  | installGuard (i : Nat)
  | gather (outer : Option Scope)
  | cancelScope
  | drainWaits (waits : List Nat)
  | waitGathered (completions : List Nat)
  | yieldIo
  | yieldCpu
  | registerTimer (deadline : Nat) (w : Waker)
  | cancelTimer (id : Nat)
  | clearTimers
  | advance (now : Nat)
  deriving DecidableEq, Repr

/-! ## What an operation does -/

namespace World

def modifyTask (t : Nat) (f : Task → Task) (w : World) : World :=
  { w with tasks := w.tasks.modify t f }

def setReady (t : Nat) (state : TaskReadyState) : World → World :=
  modifyTask t ({ · with ready := state })

def setOutput (t : Nat) (output : Output) : World → World :=
  modifyTask t ({ · with output := output })

def ready (w : World) (t : Nat) : TaskReadyState := ((w.tasks.get t).map Task.ready).getD .unknown

def output (w : World) (t : Nat) : Output := ((w.tasks.get t).map Task.output).getD .taken

def modifyWait (x : Nat) (f : WaitData → WaitData) (w : World) : World :=
  { w with waits := w.waits.modify x f }

def completion (w : World) (c : Nat) : CompletionState :=
  (w.completions[c]?.map Completion.state).getD .terminated

def setCompletion (c : Nat) (state : CompletionState) (w : World) : World :=
  { w with completions := w.completions.modify c ({ · with state := state }) }

/-- The scope of the task that is being polled. -/
def scope (w : World) : Option Scope :=
  w.currentTask.bind fun t => (w.tasks.get t).bind Task.ioScopeCompletions

def setScope (scope : Option Scope) (w : World) : World :=
  match w.currentTask with
  | some t => w.modifyTask t ({ · with ioScopeCompletions := scope })
  | none => w

def waitList (w : World) : Source → List Nat
  | .event e => w.events e
  | .task t => ((w.tasks.get t).map Task.joiningTasks).getD []

def setWaitList (waits : List Nat) (w : World) : Source → World
  | .event e => { w with events := fun i => if i = e then waits else w.events i }
  | .task t => w.modifyTask t ({ · with joiningTasks := waits })

/-- A wait is not complete before its source is; what an event says is the
environment's. -/
def isComplete (w : World) (isSet : Bool) : Source → Bool
  | .event _ => isSet
  | .task t => w.ready t = .complete

/-- `Completion::cancel`, as far as a completion that was not submitted goes. -/
def cancel (w : World) (c : Nat) : World :=
  match w.completion c with
  | .idle => w.setCompletion c .completed
  | _ => w

def abandon (w : World) (c : Nat) : World :=
  match w.completion c with
  | .completed => w.setCompletion c .terminated
  | _ => w

def isPending (w : World) (c : Nat) : Bool :=
  match w.completion c with
  | .idle | .submitted _ => true
  | .completed | .terminated => false

end World

/-- What runs when an output is dropped. -/
def Output.freed : Output → List Op
  | .future | .result true => [.user]
  | .result false | .taken => []

/-- What runs when the last reference to a task is dropped. -/
def Task.freed (task : Task) : List Op :=
  task.output.freed ++ task.joiningTasks.map Op.dropWait ++
    ((task.ioScopeCompletions.map Scope.waits).getD []).map Op.dropWait

/-- `schedule_io`, `schedule_cpu` and `abort_task` own a reference to the task:
it goes into a list, or is dropped. -/
def schedule (t : Nat) (push : World → World) (w : World) : World × List Op :=
  match w.ready t with
  | .running | .suspend => (push (w.setReady t .ready), [])
  | .complete | .ready | .aborted | .unknown => (w, [.dropTask t])

def World.pushIo (t : Nat) (w : World) : World := { w with readyIo := w.readyIo ++ [t] }

def World.pushCpu (t : Nat) (w : World) : World := { w with readyCpu := w.readyCpu ++ [t] }

def abort (t : Nat) (w : World) : World × List Op :=
  match w.ready t with
  | .suspend => ((w.setReady t .aborted).pushIo t, [])
  | .ready => (w.setReady t .aborted, [.dropTask t])
  | .running | .complete | .aborted | .unknown => (w, [.dropTask t])

/-- `WaitList::wake_one` -/
def wakeFirst (source : Source) (again : List Op) (w : World) : World × List Op :=
  match w.waitList source with
  | [] => (w, [])
  | x :: xs =>
    ((w.setWaitList xs source).modifyWait x ({ · with linked := false }),
      [Op.borrow, .release, .notify x, .dropWait x] ++ again)

/-- `schedule_new`: the table, a ready list and the caller refer to the task. -/
def scheduleNew (w : World) : World :=
  let t := w.nextTask
  { w with
    tasks := ((w.tasks.alloc t ⟨.ready, .future, [], none⟩).clone t).clone t
    nextTask := t + 1
    table := w.table ++ [t]
    readyIo := w.readyIo ++ [t] }

/-- `RingFuture::poll`. An aborted task panics before anything else. -/
def pollRingFuture (c : Nat) (waker : Waker) (w : World) : World × List Op :=
  if (w.currentTask.map w.ready) = some .aborted then (w, [])
  else
    match w.completion c with
    | .idle => (w.setCompletion c (.submitted waker), [.cloneTask waker.task])
    | .submitted old =>
      if old = waker then (w, [])
      else (w.setCompletion c (.submitted waker), [.cloneTask waker.task, .dropTask old.task])
    | .completed => (w.setCompletion c .terminated, [])
    | .terminated => (w, [])

/-- `RingFuture::new`: the completion is registered with the scope. -/
def newRingFuture (owned : Bool) (w : World) : World :=
  let completion : Completion := ⟨.idle, owned⟩
  let scope := w.scope.map fun s => { s with completions := s.completions ++
    [w.completions.length] }
  { w with completions := w.completions ++ [completion] }.setScope scope

/-- The completions of a future of `io_scope` become those of the task. -/
def takeScope (i : Nat) (w : World) : World :=
  { w with scopes := w.scopes.set i none }.setScope (w.scopes[i]?).join

/-- The references that are left in the task state at the end. -/
def World.references (w : World) : List Nat :=
  w.table ++ w.readyIo ++ w.readyCpu ++ w.completedTasks ++ w.currentTask.toList ++
    w.timers.map fun timer => timer.waker.task

def World.expired (w : World) (now : Nat) : List Timer :=
  w.timers.filter fun timer => timer.deadline ≤ now

namespace Op

/-- What the operation does, and what is to be done in its place. The
operations at which the environment decides are not executed here. -/
def exec (w : World) : Op → World × List Op
  | .borrow | .release | .user | .complete | .loop | .pollReady | .polling _ | .scopeBody .. =>
    (w, [])
  | .cloneTask t => ({ w with tasks := w.tasks.clone t }, [])
  | .dropTask t =>
    ({ w with tasks := w.tasks.drop t },
      if w.tasks.strongCount t ≤ 1 then ((w.tasks.get t).map Task.freed).getD [] else [])
  | .dropWait x =>
    ({ w with waits := w.waits.drop x },
      if w.waits.strongCount x ≤ 1 then
        ((w.waits.get x).map fun data => [.dropTask data.waker.task]).getD []
      else [])
  | .scheduleIo t => schedule t (World.pushIo t) w
  | .scheduleCpu t => schedule t (World.pushCpu t) w
  | .abortTask t => abort t w
  | .wakeByRef waker =>
    (w, [.cloneTask waker.task, .borrow, .scheduleIo waker.task, .release])
  | .wake waker => (w, [.borrow, .scheduleIo waker.task, .release])
  | .wakeTask waker =>
    (w, if waker.foreign then [.wakeByRef waker]
      else [.cloneTask waker.task, .scheduleIo waker.task])
  | .notify x => (w, ((w.waits.get x).map fun data => [.wakeByRef data.waker]).getD [])
  | .wakeOne source => wakeFirst source [] w
  | .wakeAll source => wakeFirst source [.wakeAll source] w
  | .completeAll => (w, [.complete, .complete, .clearCompleted])
  | .clearCompleted =>
    match w.completedTasks with
    | [] => (w, [])
    | ts => ({ w with completedTasks := [] }, .release :: (ts.map Op.dropTask ++ [Op.borrow]))
  | .pollTask t =>
    if w.ready t = .complete then (w, [.dropTask t])
    else ({ w with currentTask := some t }, [.cloneTask t, .release, .cloneTask t, .polling t])
  | .removeTask t =>
    (if t ∈ w.table then
      { w with table := w.table.erase t, completedTasks := w.completedTasks ++ [t] }
    else w, [])
  | .clearCurrent => ({ w with currentTask := none }, w.currentTask.toList.map .dropTask)
  | .shutdownTask t =>
    ({ w with currentTask := some t }.setOutput t .taken,
      [Op.cloneTask t, .release] ++ (w.output t).freed ++ [Op.borrow, .clearCurrent, .release])
  | .takeState =>
    ({ w with
        table := [], readyIo := [], readyCpu := [], completedTasks := []
        currentTask := none, timers := [] },
      .release :: w.references.map .dropTask)
  | .spawn => ({ scheduleNew w with held := w.held ++ [w.nextTask] }, [])
  | .newRing owned => (newRingFuture owned w, [])
  | .pollRing c waker => pollRingFuture c waker w
  | .cancel c => (w.cancel c, [])
  | .waitRing c =>
    (w, match w.currentTask, w.completions[c]? with
      | some _, some ⟨.submitted _, false⟩ => [.complete, .waitRing c]
      | _, _ => [])
  | .abandon c => (w.abandon c, [])
  | .install i => (takeScope i w, [.release, .scopeBody i w.scope])
  | .uninstall i outer => ({ w with scopes := w.scopes.set i w.scope }.setScope outer, [])
  | .installGuard i => (takeScope i w, [.release, .borrow, .gather w.scope, .release])
  | .gather outer =>
    (w.setScope outer,
      match w.scope with
      | none => []
      | some scope =>
        .completeAll :: (scope.completions.map Op.cancel ++
          [Op.drainWaits scope.waits, .waitGathered scope.completions]))
  | .cancelScope =>
    match w.scope with
    | none => (w, [])
    | some scope =>
      (w.setScope (some ⟨[], []⟩),
        scope.completions.map Op.cancel ++ [Op.completeAll, .drainWaits scope.waits])
  | .drainWaits [] => (w, [])
  | .drainWaits (x :: xs) =>
    (w.modifyWait x ({ · with canceled := true }),
      ((w.waits.get x).map fun data => [Op.wakeTask data.waker]).getD [] ++
        [Op.dropWait x, .drainWaits xs])
  | .waitGathered cs =>
    (w, if cs.any w.isPending then [.completeAll, .waitGathered cs] else [])
  | .yieldIo => (w, w.currentTask.toList.flatMap fun t => [.cloneTask t, .scheduleIo t])
  | .yieldCpu => (w, w.currentTask.toList.flatMap fun t => [.cloneTask t, .scheduleCpu t])
  | .registerTimer deadline waker =>
    ({ w with
        timers := w.timers ++ [⟨w.nextTimer, deadline, waker⟩]
        nextTimer := w.nextTimer + 1 }, [.cloneTask waker.task])
  | .cancelTimer id =>
    ({ w with timers := w.timers.filter fun timer => timer.id ≠ id },
      (w.timers.filter fun timer => timer.id = id).map fun timer => .dropTask timer.waker.task)
  | .clearTimers =>
    ({ w with timers := [] }, w.timers.map fun timer => .dropTask timer.waker.task)
  | .advance now =>
    ({ w with timers := w.timers.filter fun timer => now < timer.deadline },
      .release :: (w.expired now).map fun timer => .wake timer.waker)

end Op

/-! ## What the user's code may call -/

inductive Call where
  /-- A function that only looks at the task state. -/
  | touch
  | spawnTask
  /-- A waker is cloned, or a `TaskHandle::wait` made. -/
  | clone (t : Nat)
  | drop (t : Nat)
  | wake (t : Nat)
  | wakeByRef (w : Waker)
  /-- A `TaskHandle` returns the result of its task. -/
  | result (t : Nat)
  | abort (t : Nat)
  | newRing (owned : Bool)
  | pollRing (c : Nat) (w : Waker)
  | cancelRing (c : Nat)
  | dropRing (c : Nat)
  /-- `SubmitFuture` -/
  | submit
  /-- The first poll of a wait, and the next ones. -/
  | newWait (source : Source) (w : Waker) (isSet : Bool)
  | pollWait (x : Nat) (w : Waker) (isSet : Bool)
  | dropWait (x : Nat) (isSet : Bool)
  /-- `AsyncEvent::set` and `reset`, and `set_wake_n`. -/
  | wakeAll (e : Nat)
  | setWakeN (e : Nat) (count : Nat)
  | yieldIo (w : Waker)
  | yieldCpu (w : Waker)
  | ioScope
  | pollScope (i : Nat)
  | dropScope (i : Nat)
  | ioScopeCancel
  /-- A `VirtualSleepFuture` registers a timer in the place of its last one. -/
  | registerTimer (last : Option Nat) (deadline : Nat) (w : Waker)
  | cancelTimer (id : Nat)
  | virtualClockAdvance (now : Nat)
  | virtualClockDisable
  deriving DecidableEq, Repr

namespace World

/-- The user's code has the task: by a handle or a waker, or because it runs in
the poll of the task. -/
def has (w : World) (t : Nat) : Bool := w.held.contains t || w.currentTask == some t

def hasSource (w : World) : Source → Bool
  | .event _ => true
  | .task t => w.has t

/-- The task that is polled was aborted. -/
def isAborted (w : World) : Bool := w.currentTask.any fun t => w.ready t = .aborted

/-- `WaitList::register` -/
def link (x : Nat) (source : Source) (w : World) : World :=
  let w := w.setWaitList (w.waitList source ++ [x]) source
  { w with waits := (w.waits.clone x).modify x ({ · with linked := true }) }

/-- `WaitList::unregister` -/
def unlink (x : Nat) (source : Source) (w : World) : World :=
  (w.setWaitList ((w.waitList source).erase x) source).modifyWait x ({ · with linked := false })

/-- `Task::register_wait` -/
def registerWait (x : Nat) (w : World) : World :=
  match w.scope with
  | some s =>
    { w with waits := w.waits.clone x }.setScope (some { s with waits := s.waits ++ [x] })
  | none => w

end World

/-- The first poll of a wait that is not complete. -/
def newWaitData (source : Source) (waker : Waker) (w : World) : World :=
  let x := w.nextWait
  let data : WaitData := ⟨waker, false, false, source, false⟩
  let w := { w with
    waits := w.waits.alloc x data
    nextWait := x + 1
    heldWaits := w.heldWaits ++ [x] }
  (w.link x source).registerWait x

/-- `unregister_canceled_wait`: the future gives its data up. -/
def unregisterCanceledWait (x : Nat) (data : WaitData) (isSet : Bool) (w : World) :
    World × List Op :=
  let w := { w with heldWaits := w.heldWaits.erase x }
  if data.finished then (w, [.dropWait x])
  else
    let wakes := if w.isComplete isSet data.source then [.wakeAll data.source] else []
    if data.linked then (w.unlink x data.source, .dropWait x :: (wakes ++ [Op.dropWait x]))
    else (w, wakes ++ [Op.dropWait x])

/-- `WaitFuture::poll`, with the data of an earlier poll. -/
def pollWaitFuture (x : Nat) (data : WaitData) (waker : Waker) (isSet : Bool) (w : World) :
    World × List Op :=
  if data.canceled then
    unregisterCanceledWait x data isSet (w.modifyWait x ({ · with canceled := false }))
  else if w.currentTask.isNone || data.finished then (w, [.borrow, .release])
  else if w.isAborted then (w, [.borrow, .release, .wakeAll data.source])
  else if w.isComplete isSet data.source then
    (w.modifyWait x ({ · with finished := true }), [.borrow, .release])
  else
    let w := w.modifyWait x ({ · with waker := waker })
    let moves : List Op := [.borrow, .release, .cloneTask waker.task, .dropTask data.waker.task]
    if data.linked then (w.registerWait x, moves)
    else ((w.link x data.source).registerWait x, moves ++ [Op.borrow, .release])

/-- A call that finds the task that is polled; it panics if there is none. -/
def inTask (ops : List Op) (w : World) : World × List Op :=
  (w, if w.currentTask.isSome then ops else [.borrow, .release])

namespace Call

/-- What a call does at once, and the operations that it consists of. The user's
code cannot make a call for objects that it does not have. -/
def exec (w : World) : Call → Option (World × List Op)
  | .touch => some (w, [.borrow, .release])
  | .spawnTask => some (w, [.borrow, .spawn, .release])
  | .clone t => if w.has t then some ({ w with held := w.held ++ [t] }, [.cloneTask t]) else none
  | .drop t =>
    if t ∈ w.held then some ({ w with held := w.held.erase t }, [.dropTask t]) else none
  | .wake t =>
    if t ∈ w.held then some ({ w with held := w.held.erase t }, [.wake ⟨t, false⟩]) else none
  | .wakeByRef waker => if w.has waker.task then some (w, [.wakeByRef waker]) else none
  | .result t =>
    if t ∈ w.held ∧ w.ready t = .complete then
      some ({ w with held := w.held.erase t }.setOutput t .taken, [.dropTask t])
    else none
  | .abort t =>
    if t ∈ w.held then some (w, [.borrow, .cloneTask t, .abortTask t, .release]) else none
  | .newRing owned => some (inTask [.borrow, .newRing owned, .release] w)
  | .pollRing c waker =>
    if w.has waker.task then some (inTask [.borrow, .pollRing c waker, .release] w) else none
  | .cancelRing c => some (w, [.borrow, .cancel c, .release])
  | .dropRing c => some (w, [.borrow, .cancel c, .waitRing c, .abandon c, .release])
  | .submit => some (w, [.borrow, .complete, .release])
  | .newWait source waker isSet =>
    if !(w.hasSource source && w.has waker.task) then none
    else if w.currentTask.isNone then some (w, [.borrow, .release])
    else if w.isAborted then some (w, [.borrow, .release, .wakeAll source])
    else if w.isComplete isSet source then some (w, [.borrow, .release])
    else
      some (newWaitData source waker w,
        [.borrow, .release, .cloneTask waker.task, .borrow, .release])
  | .pollWait x waker isSet =>
    if x ∈ w.heldWaits ∧ w.has waker.task then
      (w.waits.get x).map fun data => pollWaitFuture x data waker isSet w
    else none
  | .dropWait x isSet =>
    if x ∈ w.heldWaits then
      (w.waits.get x).map fun data => unregisterCanceledWait x data isSet w
    else none
  | .wakeAll e => some (w, [.wakeAll (.event e)])
  | .setWakeN e count => some (w, List.replicate count (.wakeOne (.event e)))
  | .yieldIo waker =>
    if !w.has waker.task then none
    else if w.isAborted then some (w, [.borrow, .release])
    else some (inTask [.borrow, .yieldIo, .release, .wakeByRef waker] w)
  | .yieldCpu waker =>
    if !w.has waker.task then none
    else if w.isAborted then some (w, [.borrow, .release])
    else some (inTask [.borrow, .yieldCpu, .release, .wakeByRef waker] w)
  | .ioScope => some ({ w with scopes := w.scopes ++ [some ⟨[], []⟩] }, [])
  | .pollScope i =>
    if (w.scopes[i]?).join.isSome then some (inTask [.borrow, .install i] w) else none
  | .dropScope i =>
    (w.scopes[i]?).join.map fun s =>
      if s.completions = [] ∧ s.waits = [] then ({ w with scopes := w.scopes.set i none }, [])
      else if w.currentTask.isSome then (w, [.borrow, .installGuard i])
      else ({ w with scopes := w.scopes.set i none },
        [Op.borrow, .release] ++ s.waits.map Op.dropWait)
  | .ioScopeCancel => some (inTask [.borrow, .completeAll, .cancelScope, .release] w)
  | .registerTimer last deadline waker =>
    if w.has waker.task then
      some (w, .borrow :: (last.toList.map Op.cancelTimer ++
        [Op.registerTimer deadline waker, .release]))
    else none
  | .cancelTimer id => some (w, [.borrow, .cancelTimer id, .release])
  | .virtualClockAdvance now => some (w, [.borrow, .advance now])
  | .virtualClockDisable => some (w, [.borrow, .clearTimers, .release])

end Call

/-! ## The thread -/

/-- What the environment decides. `step` is the step of an operation at which it
decides nothing. -/
inductive Label where
  | step
  /-- The user's code calls a function, and returns. -/
  | call (c : Call)
  | done
  /-- A future is pending, or ready with a result. -/
  | pending
  | ready (calls : Bool)
  /-- The I/O of a completion has ended; `noMore` ends the loop over them. -/
  | cqe (c : Nat)
  | noMore
  /-- `get_ready` takes a task of a ready list; `noReady` ends the loop. -/
  | readyIo (t : Nat)
  | readyCpu (t : Nat)
  | noReady
  /-- The loop of `block_on` goes round, advances an idle clock, or ends. -/
  | iterate
  | idleAdvance (now : Nat)
  | exit
  deriving DecidableEq, Repr

/-- The index of the task that `block_on` was called for. -/
def mainTask : Nat := 0

/-- The end of `block_on`: the futures of all tasks are dropped, then the task
state. -/
def shutdown (table : List Nat) : List Op :=
  table.map Op.cloneTask ++ [Op.release] ++ table.flatMap (fun t => [Op.borrow, .shutdownTask t]) ++
    table.map Op.dropTask ++ [Op.borrow, .takeState, .dropTask mainTask]

namespace World

/-- `get_ready`, for a task of the I/O list. -/
def takeIo (t : Nat) (w : World) : World :=
  let w := { w with readyIo := w.readyIo.erase t }
  if w.ready t ≠ .aborted ∧ w.ready t ≠ .complete then w.setReady t .running else w

/-- `get_ready`, for a task of the CPU list; a complete task is running again. -/
def takeCpu (t : Nat) (w : World) : World :=
  let w := { w with readyCpu := w.readyCpu.erase t }
  if w.ready t ≠ .aborted then w.setReady t .running else w

def suspend (t : Nat) (w : World) : World :=
  if w.ready t = .running then w.setReady t .suspend else w

/-- The result of the main task is returned by `block_on`. -/
def takeResult (w : World) : World :=
  if w.output mainTask = .future then w else w.setOutput mainTask .taken

end World

namespace Op

/-- What is done, and what is to be done in the place of an operation. A task
that has no future cannot be polled: that is a panic, which ends `block_on`. -/
def react (w : World) (op : Op) (a : Label) : Option (World × List Op) :=
  match op with
  | .user =>
    match a with
    | .call c => (c.exec w).map fun r => (r.1, r.2 ++ [Op.user])
    | .done => some (w, [])
    | _ => none
  | .polling t =>
    if w.output t = .future then
      match a with
      | .call c => (c.exec w).map fun r => (r.1, r.2 ++ [Op.polling t])
      | .pending => some (w.suspend t, [.borrow, .clearCurrent, .dropTask t, .dropTask t])
      | .ready calls =>
        some ((w.setOutput t (.result calls)).setReady t .complete,
          [.wakeAll (.task t), .borrow, .removeTask t, .clearCurrent, .dropTask t, .dropTask t])
      | _ => none
    else none
  | .scopeBody i outer =>
    match a with
    | .call c => (c.exec w).map fun r => (r.1, r.2 ++ [Op.scopeBody i outer])
    | .pending => some (w, [.borrow, .uninstall i outer, .release])
    | .ready _ => some (w, [.borrow, .gather outer, .release])
    | _ => none
  | .complete =>
    match a with
    | .cqe c =>
      match w.completion c with
      | .submitted waker =>
        some (w.setCompletion c .completed, [.release, .wake waker, .borrow, .complete])
      | _ => none
    | .noMore => some (w, [])
    | _ => none
  | .pollReady =>
    match a with
    | .readyIo t =>
      if t ∈ w.readyIo then some (w.takeIo t, [.pollTask t, .pollReady]) else none
    | .readyCpu t =>
      if t ∈ w.readyCpu then some (w.takeCpu t, [.pollTask t, .pollReady]) else none
    | .noReady => some (w, [])
    | _ => none
  | .loop =>
    match a with
    | .iterate => some (w, [.completeAll, .pollReady, .loop])
    | .idleAdvance now => some (w, [.advance now, .borrow, .loop])
    | .exit => some (w.takeResult, shutdown w.table)
    | _ => none
  | op => if a = .step then some (op.exec w) else none

end Op

/-- The thread, with what it still has to do. -/
structure Thread where
  world : World
  borrowed : Bool
  control : List Op

namespace Thread

/-- A thread whose state is borrowed does not borrow it again: there the code has
lost its guarantee, and the model ends. -/
def next (s : Thread) (a : Label) : Option Thread :=
  match s.control with
  | [] => none
  | .borrow :: rest =>
    if s.borrowed then none else some { s with borrowed := true, control := rest }
  | .release :: rest => some { s with borrowed := false, control := rest }
  | op :: rest => (op.react s.world a).map fun r => ⟨r.1, s.borrowed, r.2 ++ rest⟩

/-- The state is about to be borrowed while it is. -/
def BorrowsTwice (s : Thread) : Prop := s.borrowed = true ∧ s.control.head? = some .borrow

instance (s : Thread) : Decidable s.BorrowsTwice := inferInstanceAs (Decidable (_ ∧ _))

end Thread

/-- The objects that `block_on` starts with: the main task and the server of the
runtime's handles, which nobody waits for. -/
def World.new : World :=
  let empty : World :=
    { tasks := .empty, nextTask := 0, table := [], readyIo := [], readyCpu := []
      completedTasks := [], currentTask := none, completions := [], waits := .empty
      nextWait := 0, events := fun _ => [], timers := [], nextTimer := 1, scopes := []
      held := [], heldWaits := [] }
  let w := scheduleNew (scheduleNew empty)
  { w with tasks := w.tasks.drop 1 }

def Thread.new : Thread := ⟨.new, false, [.borrow, .loop]⟩

/-- The thread that runs `block_on`. -/
def blockOn : System Thread Label := ⟨.new, Thread.next⟩

end Kimojio.TaskStateCell
