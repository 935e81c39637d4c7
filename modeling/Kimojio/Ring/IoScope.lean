import Kimojio.Transition
import Kimojio.Ring.Completion

/-!
# Kimojio.Ring.IoScope

A thread of the runtime as its tasks see it: the I/O futures and waits that
they hold, the `io_scope` futures, and the slot in which a task has the list
of the scope that is being polled.

The list of a scope moves by swaps between the scope's future, the slot and
the stack, so it has a number by which all three can hold it. `frames` is
the stack of the calls in which the running task is: user code runs unless
the innermost of them waits for the kernel. What a completed task left
behind is dropped while a scope waits, so user code also runs there.
-/

namespace Kimojio.Ring

structure RingFuture where
  handle : Ref
  needsDrop : Bool
  deriving DecidableEq, Repr

structure IoScopeCompletions where
  completions : List Ref
  waits : List Nat
  deriving DecidableEq, Repr

/-- An `IoScopeFuture`: the list in its guard, and whether it has resolved,
panicked or been dropped. -/
structure IoScopeFuture where
  completions : Option Nat
  ended : Bool
  deriving DecidableEq, Repr

inductive Frame where
  /-- `IoScopeFuture::poll`, with the list it took out of the slot. -/
  | polling (scope : Nat) (outer : Option Nat)
  /-- The body of a scope is being dropped. -/
  | unwinding (scope : Nat)
  /-- `io_scope_cancel_and_wait_internal` with the gathered list, before and
  after it has canceled it. -/
  | exiting (scope : Nat) (gathered : Nat) (canceled : Bool)
  /-- `cancel_io_scope_completions` between the operations and the waits. -/
  | canceling (list : Nat)
  /-- `RingFuture::drop` waits for the kernel. -/
  | dropping (future : RingFuture)
  deriving DecidableEq, Repr

/-- A wait future. `first` has the scopes that were being polled when it was
polled first, `canceledBy` the scopes whose exit canceled it. -/
structure Wait where
  canceled : Bool
  outcome : Option Bool
  first : Option (List Nat)
  canceledBy : List Nat
  dropped : Bool
  deriving DecidableEq, Repr

/-- `chains` has for every operation the scopes that were being polled when
it was made, from the innermost one on. -/
structure Thread where
  io : Io
  futures : List RingFuture
  lists : List IoScopeCompletions
  scopes : List IoScopeFuture
  slots : Nat → Option Nat
  current : Option Nat
  frames : List Frame
  waits : List Wait
  chains : List (List Nat)

/-- What `with_polled` is called with. -/
structure Request where
  timespec : Bool
  iopoll : Bool
  ownedResources : CompletionResources
  needsDrop : Bool
  deriving DecidableEq, Repr

inductive Label where
  /-- The event loop polls a task, and the task returns to it. -/
  | enter (task : Nat)
  | leave
  | create (request : Request) (fresh : Nat)
  | close (fresh : Nat)
  | poll (i : Nat) (aborted : Bool)
  | cancel (i : Nat)
  | drop (i : Nat)
  /-- A waker drops a future while the runtime has the task state borrowed. -/
  | dropBorrowed (i : Nat)
  | dropped
  | ioScope
  | scopePoll (scope : Nat)
  | scopePending
  /-- The body returned or panicked. -/
  | scopeReady
  | gather
  | settle
  | scopeDrop (scope : Nat)
  | scopeGuard
  | ioScopeCancel
  | ioScopeCanceled
  | newWait
  | pollWait (w : Nat) (complete aborted : Bool)
  | dropWait (w : Nat)
  | take (iopoll : Bool)
  | post (iopoll : Bool) (i : Nat) (result : CqeResult)
  | process (iopoll : Bool)
  deriving DecidableEq, Repr

namespace Frame

/-- The scope whose body is being polled. -/
def polled : Frame → Option Nat
  | .polling s _ => some s
  | _ => none

/-- The scope that is in use. -/
def scope : Frame → Option Nat
  | .polling s _ | .unwinding s | .exiting s _ _ => some s
  | _ => none

def handle : Frame → Option Ref
  | .dropping f => some f.handle
  | _ => none

end Frame

/-- The scopes that are being polled, from the innermost one on. -/
def polled (frames : List Frame) : List Nat := frames.filterMap Frame.polled

namespace Io

def incomplete (io : Io) (r : Ref) : Bool :=
  (io.heap.get r.addr).any fun c => !c.state.isFinished

/-- What `swap_remove` leaves after the element that it removes. -/
def moveLast (rest : List Ref) : List Ref :=
  match rest.getLast? with
  | none => []
  | some r => r :: rest.dropLast

/-- `retain_incomplete` from an index on; the loop runs once for every
element. -/
def retainIncomplete : Nat → Io → List Ref → Io × List Ref
  | 0, io, rest => (io, rest)
  | _ + 1, io, [] => (io, [])
  | n + 1, io, r :: rest =>
    if io.incomplete r then
      let (io, kept) := retainIncomplete n io rest
      (io, r :: kept)
    else retainIncomplete n (io.returnCompletion r.addr) (moveLast rest)

def cancelAll (io : Io) (cause : Cause) (refs : List Ref) : Io :=
  refs.foldl (fun io r => io.cancel r cause) io

def drain (io : Io) (cause : Cause) (refs : List Ref) : Io :=
  refs.foldl (fun io r => (io.cancel r cause).returnCompletion r.addr) io

def dropAll (io : Io) (refs : List Ref) : Io := refs.foldl (fun io r => io.dropRc r.addr) io

end Io

namespace Wait

def new : Wait := ⟨false, none, none, [], false⟩

/-- Neither resolved nor dropped. -/
def isPending (w : Wait) : Bool := w.outcome.isNone && !w.dropped

/-- A poll with these scopes around it. -/
def polledIn (w : Wait) (scopes : List Nat) : Wait :=
  { w with first := some (w.first.getD scopes) }

def cancel (cause : Option Nat) (w : Wait) : Wait :=
  { w with canceled := true, canceledBy := cause.toList ++ w.canceledBy }

end Wait

namespace Thread

def new : Thread := ⟨.new, [], [], [], fun _ => none, none, [], [], []⟩

/-- Every reference that a future or a list holds. -/
def held (th : Thread) : List Ref :=
  th.futures.map RingFuture.handle ++ th.frames.filterMap Frame.handle ++
    th.lists.flatMap IoScopeCompletions.completions

/-- The innermost call is in user code. -/
def userRuns (th : Thread) : Bool :=
  match th.frames with
  | .dropping _ :: _ | .canceling _ :: _ => false
  | _ => true

/-- A scope that is not being polled, dropped or waiting. -/
def isFree (th : Thread) (s : Nat) : Bool :=
  (th.scopes[s]?).any (!·.ended) && !(th.frames.filterMap Frame.scope).contains s

def setSlot (th : Thread) (t : Nat) (list : Option Nat) : Thread :=
  { th with slots := fun t' => if t' = t then list else th.slots t' }

def setScope (th : Thread) (s : Nat) (scope : IoScopeFuture) : Thread :=
  { th with scopes := th.scopes.set s scope }

def setList (th : Thread) (l : Nat) (list : IoScopeCompletions) : Thread :=
  { th with lists := th.lists.set l list }

/-! ## I/O futures -/

def registerIo (th : Thread) (t : Nat) (r : Ref) : Thread :=
  match th.slots t with
  | none => th
  | some l =>
    match th.lists[l]? with
    | none => th
    | some list =>
      { th with io := th.io.clone r.addr }.setList l
        { list with completions := list.completions ++ [r] }

/-- `RingFuture::with_polled`; outside of a task it panics at once. -/
def withPolled (th : Thread) (entry : Entry) (request : Request) (fresh : Nat) : Option Thread :=
  match th.current with
  | none => none
  | some t =>
    if (th.io.heap.cell fresh).isSome then none
    else
      let op := th.io.nextOp
      let c : Completion :=
        ⟨.idle entry request.timespec, request.ownedResources, request.iopoll, op⟩
      match th.io.newCompletion fresh c with
      | (io, none) => some { th with io }
      | (io, some a) =>
        let r : Ref := ⟨a, op⟩
        some ({ th with
          io
          futures := ⟨r, request.needsDrop⟩ :: th.futures
          chains := th.chains ++ [polled th.frames] }.registerIo t r)

/-- `operations::close`; the descriptor moves into the completion. -/
def close (th : Thread) (fresh : Nat) : Option Thread :=
  let fd := th.io.nextOp
  th.withPolled (.close fd) ⟨false, false, .closeFd (some fd), false⟩ fresh

/-- `RingFuture::poll`; a future that returned its result has no handle. -/
def pollFuture (th : Thread) (i : Nat) (aborted : Bool) : Option Thread :=
  match th.futures[i]?, th.current with
  | some f, some _ =>
    match th.io.poll aborted f.handle with
    | (io, .ready _) => some { th with io, futures := th.futures.eraseIdx i }
    | (io, _) => some { th with io }
  | _, _ => none

def cancelFuture (th : Thread) (i : Nat) : Option Thread :=
  match th.futures[i]? with
  | some f => some { th with io := th.io.cancel f.handle .future }
  | none => none

def mustWait (io : Io) (f : RingFuture) : Bool :=
  (io.heap.get f.handle.addr).any (·.mustWait f.needsDrop)

/-- `RingFuture::drop` up to its loop. -/
def dropFuture (th : Thread) (i : Nat) : Option Thread :=
  match th.futures[i]? with
  | none => none
  | some f =>
    let io := th.io.cancel f.handle .future
    let futures := th.futures.eraseIdx i
    if mustWait io f then
      match th.current with
      -- outside of a task this panics, and the handle goes with the future
      | none => some { th with io := io.dropRc f.handle.addr, futures }
      | some _ => some { th with io, futures, frames := .dropping f :: th.frames }
    else some { th with io := io.abandon f.handle, futures }

/-- `RingFuture::drop` where the task state is borrowed: a debug build panics
in `TaskState::get`, before the cancellation, and the handle goes with the
future. -/
def dropBorrowed (th : Thread) (i : Nat) : Option Thread :=
  match th.futures[i]? with
  | none => none
  | some f => some { th with io := th.io.dropRc f.handle.addr, futures := th.futures.eraseIdx i }

/-- The loop of `RingFuture::drop` has ended. -/
def droppedFuture (th : Thread) : Option Thread :=
  match th.frames with
  | .dropping f :: frames =>
    if mustWait th.io f then none
    else some { th with io := th.io.abandon f.handle, frames }
  | _ => none

/-! ## Scopes -/

def ioScope (th : Thread) : Thread :=
  { th with
    scopes := th.scopes ++ [⟨some th.lists.length, false⟩]
    lists := th.lists ++ [⟨[], []⟩] }

/-- `IoScopeFuture::poll` up to the poll of its body. -/
def scopePoll (th : Thread) (s : Nat) : Option Thread :=
  match th.current, th.scopes[s]? with
  | some t, some scope =>
    if th.isFree s then
      some { (th.setSlot t scope.completions).setScope s { scope with completions := none } with
        frames := .polling s (th.slots t) :: th.frames }
    else none
  | _, _ => none

/-- The body is pending: the list goes back into the guard. -/
def scopePending (th : Thread) : Option Thread :=
  match th.current, th.frames with
  | some t, .polling s outer :: frames =>
    some { (th.setSlot t outer).setScope s ⟨th.slots t, false⟩ with frames }
  | _, _ => none

/-- The scope is left. -/
def endScope (th : Thread) (s : Nat) : Thread := th.setScope s ⟨none, true⟩

/-- `io_scope_cancel_and_wait_internal` up to its first flush. -/
def cancelAndWait (th : Thread) (t s : Nat) (outer : Option Nat) : Thread :=
  let gathered := th.slots t
  let th := th.setSlot t outer
  match gathered with
  | none => th.endScope s
  | some l => { th with frames := .exiting s l false :: th.frames }

def scopeReady (th : Thread) : Option Thread :=
  match th.current, th.frames with
  | some t, .polling s outer :: frames => some ({ th with frames }.cancelAndWait t s outer)
  | _, _ => none

def cancelWaits (cause : Option Nat) (ws : List Nat) (waits : List Wait) : List Wait :=
  ws.foldl (fun waits w => waits.modify w (Wait.cancel cause)) waits

/-- The gathered operations and waits are canceled. -/
def gather (th : Thread) : Option Thread :=
  match th.frames with
  | .exiting s l false :: frames =>
    match th.lists[l]? with
    | none => none
    | some list =>
      let (io, kept) := th.io.retainIncomplete list.completions.length list.completions
      some ({ th with
        io := io.cancelAll (.exit s) kept
        waits := cancelWaits (some s) list.waits th.waits
        frames := .exiting s l true :: frames }.setList l ⟨kept, []⟩)
  | _ => none

/-- One round of the loop that waits for the gathered operations; the scope
is left when there are none. -/
def settle (th : Thread) : Option Thread :=
  match th.frames with
  | .exiting s l true :: frames =>
    match th.lists[l]? with
    | none => none
    | some list =>
      let (io, kept) := th.io.retainIncomplete list.completions.length list.completions
      let th := { th with io }.setList l { list with completions := kept }
      if kept.isEmpty then some ({ th with frames }.endScope s) else some th
  | _ => none

def scopeDrop (th : Thread) (s : Nat) : Option Thread :=
  if th.isFree s then some { th with frames := .unwinding s :: th.frames } else none

/-- `IoScopeCompletionsGuard::drop`, after the body has been dropped. -/
def scopeGuard (th : Thread) : Option Thread :=
  match th.frames with
  | .unwinding s :: frames =>
    let th := { th with frames }
    match (th.scopes[s]?).bind IoScopeFuture.completions with
    | none => some (th.endScope s)
    | some l =>
      match th.lists[l]? with
      | none => none
      | some list =>
        if list.completions.isEmpty && list.waits.isEmpty then some (th.endScope s)
        else
          match th.current with
          -- outside of a task this panics, and the list is dropped
          | none => some (({ th with io := th.io.dropAll list.completions }.setList l
              ⟨[], []⟩).endScope s)
          | some t => some ((th.setSlot t (some l)).cancelAndWait t s (th.slots t))
  | _ => none

/-- `io_scope_cancel` up to the flush of what it has canceled. -/
def ioScopeCancel (th : Thread) : Option Thread :=
  match th.current.bind th.slots with
  | none => none
  | some l =>
    match th.lists[l]? with
    | none => none
    | some list =>
      some ({ th with
        io := th.io.drain (.call l) list.completions
        frames := .canceling l :: th.frames }.setList l { list with completions := [] })

def ioScopeCanceled (th : Thread) : Option Thread :=
  match th.frames with
  | .canceling l :: frames =>
    match th.lists[l]? with
    | none => none
    | some list =>
      some ({ th with
        waits := cancelWaits none list.waits th.waits
        frames }.setList l { list with waits := [] })
  | _ => none

/-! ## Waits -/

def registerWait (th : Thread) (t w : Nat) : Thread :=
  match th.slots t with
  | none => th
  | some l =>
    match th.lists[l]? with
    | none => th
    | some list => th.setList l { list with waits := list.waits ++ [w] }

/-- `WaitFuture::poll`, with what the source and the task answer. -/
def pollWait (th : Thread) (w : Nat) (complete aborted : Bool) : Option Thread :=
  match th.waits[w]? with
  | none => none
  | some wait =>
    if !wait.isPending then none
    else if wait.canceled then
      some { th with
        waits := th.waits.set w { wait with canceled := false, outcome := some false } }
    else
      match th.current with
      | none => none
      | some t =>
        let wait := wait.polledIn (polled th.frames)
        let th := { th with waits := th.waits.set w wait }
        if aborted then some th
        else if complete then
          some { th with waits := th.waits.set w { wait with outcome := some true } }
        else some (th.registerWait t w)

/-- `WaitFuture::drop`; the list of the scope keeps what it has of the wait. -/
def dropWait (th : Thread) (w : Nat) : Option Thread :=
  match th.waits[w]? with
  | none => none
  | some wait => some { th with waits := th.waits.set w { wait with dropped := true } }

/-! ## The system -/

def next (th : Thread) : Label → Option Thread
  | .enter t =>
    if th.current = none ∧ th.frames = [] then some { th with current := some t } else none
  | .leave => if th.frames = [] then some { th with current := none } else none
  | .create request fresh =>
    match request.ownedResources with
    | .closeFd _ => none
    | _ => if th.userRuns then th.withPolled .other request fresh else none
  | .close fresh => if th.userRuns then th.close fresh else none
  | .poll i aborted => if th.userRuns then th.pollFuture i aborted else none
  | .cancel i => if th.userRuns then th.cancelFuture i else none
  | .drop i => th.dropFuture i
  | .dropBorrowed i => th.dropBorrowed i
  | .dropped => th.droppedFuture
  | .ioScope => if th.userRuns then some th.ioScope else none
  | .scopePoll s => if th.userRuns then th.scopePoll s else none
  | .scopePending => th.scopePending
  | .scopeReady => th.scopeReady
  | .gather => th.gather
  | .settle => th.settle
  | .scopeDrop s => if th.userRuns then th.scopeDrop s else none
  | .scopeGuard => th.scopeGuard
  | .ioScopeCancel => if th.userRuns then th.ioScopeCancel else none
  | .ioScopeCanceled => th.ioScopeCanceled
  | .newWait => if th.userRuns then some { th with waits := th.waits ++ [.new] } else none
  | .pollWait w complete aborted =>
    if th.userRuns then th.pollWait w complete aborted else none
  | .dropWait w => th.dropWait w
  | .take iopoll => (th.io.take iopoll).map fun io => { th with io }
  | .post iopoll i result => (th.io.post iopoll i result).map fun io => { th with io }
  | .process iopoll => (th.io.processCompletion iopoll).map fun io => { th with io }

end Thread

/-- A thread with everything that its tasks and the kernel may do. -/
def threads : System Thread Label := ⟨.new, Thread.next⟩

end Kimojio.Ring
