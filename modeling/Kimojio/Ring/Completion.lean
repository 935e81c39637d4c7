import Kimojio.RcHeap

/-!
# Kimojio.Ring.Completion

The life of one I/O operation: the `Completion` that a `RingFuture` and the
kernel share, the pool in which completions are reused, and the two rings.

The kernel sees a completion as an address. A `Ref` is such an address
together with the number of the operation that was meant, which the program
does not have: only the proofs compare it. What the kernel does is three
steps: it takes the first entry of a submission queue, it posts the
completion of an entry it has taken, in any order and with any result, and
the runtime processes the first entry of a completion queue.
-/

namespace Kimojio.Ring

/-- An error number. -/
structure Errno where
  raw : Nat
  deriving DecidableEq, Repr

namespace Errno

def canceled : Errno := ⟨125⟩
def time : Errno := ⟨62⟩

end Errno

/-- The result of an operation. -/
inductive CqeResult where
  | ok (value : Nat)
  | error (code : Errno)
  deriving DecidableEq, Repr

/-- What the entry of an operation asks for. A descriptor is named by the
operation that was given it. -/
inductive Entry where
  | close (fd : Nat)
  | other
  deriving DecidableEq, Repr

inductive CompletionState where
  | idle (entry : Entry) (timespec : Bool)
  | submitted (canceled : Bool)
  | completed (result : CqeResult)
  | terminated
  deriving DecidableEq, Repr

inductive CompletionResources where
  | none
  | closeFd (fd : Option Nat)
  | timespec
  | box
  | rc
  | inlineBuffer
  deriving DecidableEq, Repr

structure Completion where
  state : CompletionState
  ownedResources : CompletionResources
  iopoll : Bool
  op : Nat
  deriving DecidableEq, Repr

/-- A pointer to the completion of an operation. -/
structure Ref where
  addr : Nat
  op : Nat
  deriving DecidableEq, Repr

inductive Sqe where
  | op (r : Ref) (entry : Entry)
  | linkTimeout (r : Ref)
  | asyncCancel (r : Ref)
  deriving DecidableEq, Repr

structure Cqe where
  userData : Option Ref
  result : CqeResult
  deriving DecidableEq, Repr

/-- A ring: the entries that wait for the kernel, those that it works on, and
the completions that it has posted. -/
structure IoUring where
  sq : List Sqe
  kernel : List Sqe
  cq : List Cqe
  deriving DecidableEq, Repr

/-- Who asked for a cancellation: the future of the operation, the exit of a
scope, or a call of `io_scope_cancel` while the list of a scope is installed. -/
inductive Cause where
  | future
  | exit (scope : Nat)
  | call (scope : Nat)
  deriving DecidableEq, Repr

/-- The panics that a count or a state out of step would cause. -/
inductive Fault where
  | notSubmitted
  | completedTwice
  | dangling
  | pooledShared
  deriving DecidableEq, Repr

/-- The rings and the completions of a thread. `places` has the address of
every operation ever made; the fields after it are a record of what happened:
the operations whose result a poll returned, which operation a cancellation
was meant for and which one it found, the descriptors that were released, and
every call of `cancel`. -/
structure Io where
  heap : RcHeap Completion
  completionPool : List Nat
  rings : Bool → IoUring
  places : List Nat
  delivered : List Nat
  named : List (Nat × Nat)
  released : List Nat
  requests : List (Nat × Cause)
  faults : List Fault

namespace CompletionState

def isSubmitted : CompletionState → Bool
  | .submitted _ => true
  | _ => false

/-- Neither waiting to be submitted nor submitted. -/
def isFinished : CompletionState → Bool
  | .completed _ | .terminated => true
  | _ => false

end CompletionState

namespace Completion

/-- The descriptor that a completion owns. -/
def fd (c : Completion) : List Nat :=
  match c.ownedResources with
  | .closeFd (some fd) => [fd]
  | _ => []

/-- The descriptor has left the cell. -/
def takeFd (c : Completion) : Completion :=
  match c.ownedResources with
  | .closeFd _ => { c with ownedResources := .closeFd none }
  | _ => c

/-- The request may use memory that the future borrows, or has a result that
somebody has to drop. -/
def mustWait (c : Completion) (needsDrop : Bool) : Bool :=
  c.state.isSubmitted && (needsDrop || match c.ownedResources with
    | .none | .closeFd _ => true
    | _ => false)

end Completion

namespace Sqe

/-- The completion whose reference count the entry holds. -/
def userData : Sqe → Option Ref
  | .op r _ => some r
  | _ => none

end Sqe

namespace IoUring

def new : IoUring := ⟨[], [], []⟩

/-- The references that the kernel will give back. -/
def inFlight (ring : IoUring) : List Ref :=
  ring.sq.filterMap Sqe.userData ++ ring.kernel.filterMap Sqe.userData ++
    ring.cq.filterMap Cqe.userData

end IoUring

namespace Io

def new : Io :=
  ⟨.empty, [], fun _ => .new, [], [], [], [], [], []⟩

/-- The number of the next operation. -/
def nextOp (io : Io) : Nat := io.places.length

def inFlight (io : Io) : List Ref := (io.rings false).inFlight ++ (io.rings true).inFlight

/-- The completion of an operation, as long as it is not freed or reused. -/
def completionOf (io : Io) (op : Nat) : Option Completion :=
  (io.places[op]?).bind fun a => (io.heap.get a).filter (·.op == op)

def setRing (io : Io) (iopoll : Bool) (ring : IoUring) : Io :=
  { io with rings := fun b => if b = iopoll then ring else io.rings b }

abbrev setCq (io : Io) (iopoll : Bool) (cq : List Cqe) : Io :=
  io.setRing iopoll { io.rings iopoll with cq }

def setState (io : Io) (a : Nat) (state : CompletionState) : Io :=
  { io with heap := io.heap.modify a fun c => { c with state } }

def clone (io : Io) (a : Nat) : Io := { io with heap := io.heap.clone a }

/-- The last reference to a completion drops what it owns. -/
def dropRc (io : Io) (a : Nat) : Io :=
  { io with
    heap := io.heap.drop a
    released :=
      (if io.heap.strongCount a = 1 then (io.heap.get a).elim [] Completion.fd else [])
        ++ io.released }

def submit (io : Io) (iopoll : Bool) (entries : List Sqe) : Io :=
  let ring := io.rings iopoll
  io.setRing iopoll ⟨ring.sq ++ entries, ring.kernel, ring.cq⟩

/-! ## Completions and their pool -/

def maxCompletionPoolEntries : Nat := 4096

def returnCompletion (io : Io) (a : Nat) : Io :=
  if io.completionPool.length < maxCompletionPoolEntries ∧ io.heap.strongCount a = 1 then
    { io with completionPool := io.completionPool ++ [a] }
  else io.dropRc a

/-- `new_completion`; a pooled completion that is overwritten drops what it
owned. `fresh` is the address that the allocator would return. -/
def newCompletion (io : Io) (fresh : Nat) (c : Completion) : Io × Option Nat :=
  match io.completionPool with
  | a :: pool =>
    if io.heap.strongCount a = 1 then
      ({ io with
          completionPool := pool
          heap := io.heap.modify a fun _ => c
          places := io.places ++ [a]
          released := (io.heap.get a).elim [] Completion.fd ++ io.released }, some a)
    else ({ io with faults := .pooledShared :: io.faults }, none)
  | [] =>
    ({ io with heap := io.heap.alloc fresh c, places := io.places ++ [fresh] }, some fresh)

/-- `Completion::cancel`. -/
def cancel (io : Io) (r : Ref) (cause : Cause) : Io :=
  let io := { io with requests := (r.op, cause) :: io.requests }
  match io.heap.get r.addr with
  | some c =>
    match c.state with
    | .idle _ _ => io.setState r.addr (.completed (.error .canceled))
    | .submitted false =>
      (io.setState r.addr (.submitted true)).submit c.iopoll [.asyncCancel r]
    | _ => io
  | none => io

/-- `finish_close`, and then the state is `Terminated`. -/
def finish (io : Io) (a : Nat) (result : CqeResult) : Io :=
  { io with
    heap := io.heap.modify a fun c => { c.takeFd with state := .terminated }
    released :=
      (if result = .error .canceled then (io.heap.get a).elim [] Completion.fd else [])
        ++ io.released }

/-! ## The future -/

/-- What a poll of a `RingFuture` returns. -/
inductive FuturePoll where
  | pending
  | ready (result : CqeResult)
  | panicked
  deriving DecidableEq, Repr

def FuturePoll.isReady : FuturePoll → Bool
  | .ready _ => true
  | _ => false

/-- `RingFuture::poll` for a future that still has its handle. -/
def poll (io : Io) (aborted : Bool) (r : Ref) : Io × FuturePoll :=
  match io.heap.get r.addr with
  | some c =>
    match c.state with
    | .idle entry timespec =>
      if aborted then (io, .panicked)
      else
        -- the clone is undone when the completion is processed
        let io := io.clone r.addr
        let io := io.submit c.iopoll (.op r entry :: if timespec then [.linkTimeout r] else [])
        (io.setState r.addr (.submitted false), .pending)
    | .submitted _ => if aborted then (io, .panicked) else (io, .pending)
    | .completed result =>
      let io := io.finish r.addr result
      let io := { io with delivered := r.op :: io.delivered }
      (io.returnCompletion r.addr, .ready result)
    | .terminated => (io, .panicked)
  | none => (io, .panicked)

/-- The end of `RingFuture::drop`, when there is nothing to wait for. -/
def abandon (io : Io) (r : Ref) : Io :=
  match io.heap.get r.addr with
  | some c =>
    match c.state with
    | .completed result => (io.finish r.addr result).dropRc r.addr
    | _ => io.dropRc r.addr
  | none => io

/-! ## The kernel and the completion queue -/

/-- The operations that a cancellation for an address finds in the kernel. -/
def found (ring : IoUring) (a : Nat) : List Nat :=
  ((ring.kernel.filterMap Sqe.userData).filter (·.addr == a)).map Ref.op

/-- The kernel takes the first entry of a submission queue. -/
def take (io : Io) (iopoll : Bool) : Option Io :=
  match (io.rings iopoll).sq with
  | [] => none
  | e :: sq =>
    let ring := io.rings iopoll
    let io := io.setRing iopoll ⟨sq, ring.kernel ++ [e], ring.cq⟩
    match e with
    | .asyncCancel r => some { io with
        named := (found ring r.addr).map (r.op, ·) ++ io.named }
    | _ => some io

/-- The kernel posts the completion of an entry that it has taken. A close
releases its descriptor unless it was canceled. -/
def post (io : Io) (iopoll : Bool) (i : Nat) (result : CqeResult) : Option Io :=
  let ring := io.rings iopoll
  match ring.kernel[i]? with
  | none => none
  | some e =>
    let io := io.setRing iopoll ⟨ring.sq, ring.kernel.eraseIdx i, ring.cq ++ [⟨e.userData, result⟩]⟩
    match e with
    | .op _ (.close fd) =>
      if result = .error .canceled then some io
      else some { io with released := fd :: io.released }
    | _ => some io

/-- One round of `process_completions`. -/
def processCompletion (io : Io) (iopoll : Bool) : Option Io :=
  match (io.rings iopoll).cq with
  | [] => none
  | cqe :: cq =>
    let io := io.setCq iopoll cq
    match cqe.userData with
    | none => some io
    | some r =>
      match io.heap.get r.addr with
      | none => some { io with faults := .dangling :: io.faults }
      | some c =>
        match c.state with
        | .idle _ _ => some { io with faults := .notSubmitted :: io.faults }
        | .submitted canceled =>
          -- a timeout also ends in `ECANCELED`
          let result :=
            if cqe.result = .error .canceled ∧ canceled = false then .error .time
            else cqe.result
          some ((io.setState r.addr (.completed result)).returnCompletion r.addr)
        | _ => some { io with faults := .completedTwice :: io.faults }

end Io

end Kimojio.Ring
