import Kimojio.Table
import Kimojio.Transition
import Kimojio.Ring.Completion

/-!
# Kimojio.Pipe.MessagePipe

Boxed messages that are sent as pointers through a pipe.

A call of `send_message` or `recv_message` is a future with one write or read
in it. The kernel completes that transfer at any time and with any result,
and the future learns the result when it is polled or while it is dropped.
A message is named by a number; `freed` and `received` record what became of
it.

`MessagePipe`, `MessagePipeSender` and `MessagePipeReceiver` share their code
and are the kind `plain`; `IdMessagePipe` is the kind `id`.
-/

namespace Kimojio.Pipe

open Kimojio.Ring (Errno)

inductive Kind where
  | plain
  | id
  deriving DecidableEq, Repr

/-- What is written at once: a pointer, after an id if the pipe has ids. -/
structure Frame where
  id : Option Nat
  message : Nat
  deriving DecidableEq, Repr

def epipe : Errno := ⟨32⟩

/-- A call of `send_message`. The result of a write is there when the kernel
has completed it. -/
inductive Send where
  | created
  | writing (result : Option (Except Errno Unit))
  /-- The write is being dropped, and waits for its result. -/
  | dropping (result : Option (Except Errno Unit))
  /-- The write is dropped, and still on its way. -/
  | orphaned
  /-- The call has returned, or it was dropped or has panicked. -/
  | ended (returned : Option (Except Errno Unit))

/-- A call of `recv_message`. A read without a frame is at the end of the
stream. -/
inductive Recv where
  | created
  | reading (result : Option (Except Errno (Option Frame)))
  | dropping (result : Option (Except Errno (Option Frame)))
  | orphaned
  | ended (returned : Option (Except Errno Frame))

inductive Call where
  | send (dir : Bool) (frame : Frame) (state : Send)
  | recv (dir : Bool) (state : Recv)

/-- Both directions of a pipe, and all calls that were ever made on it. -/
structure MessagePipe where
  fifo : Bool → List Frame
  calls : List Call
  received : List Frame
  freed : List Nat
  made : Nat

/-- How the kernel answers a read. -/
inductive Answer where
  | frame
  | eof
  | error (code : Errno)
  deriving DecidableEq, Repr

inductive Label where
  | sendMessage (dir : Bool) (id : Nat)
  | recvMessage (dir : Bool)
  | poll (i : Nat) (aborted : Bool)
  /-- The future of a call is dropped, in a task or not. -/
  | drop (i : Nat) (inTask : Bool)
  | dropped (i : Nat)
  | write (i : Nat) (result : Except Errno Unit)
  | read (i : Nat) (answer : Answer)
  | sendMessageSync (dir : Bool) (id : Nat) (result : Except Errno Unit)
  | recvMessageSync (dir : Bool) (answer : Answer)

namespace MessagePipe

def new : MessagePipe := ⟨fun _ => [], [], [], [], 0⟩

def setCall (p : MessagePipe) (i : Nat) (call : Call) : MessagePipe :=
  { p with calls := p.calls.set i call }

def push (p : MessagePipe) (dir : Bool) (frame : Frame) : MessagePipe :=
  { p with fifo := fun d => if d = dir then p.fifo d ++ [frame] else p.fifo d }

def pop (p : MessagePipe) (dir : Bool) : Option (Frame × MessagePipe) :=
  match p.fifo dir with
  | [] => none
  | frame :: rest =>
    some (frame, { p with fifo := fun d => if d = dir then rest else p.fifo d })

/-- A box is dropped. -/
def free (p : MessagePipe) (message : Nat) : MessagePipe := { p with freed := message :: p.freed }

def deliver (p : MessagePipe) (frame : Frame) : MessagePipe :=
  { p with received := frame :: p.received }

/-- `pointer_to_buffer` and `IdPointerMsg::from_id_box`. -/
def buffer (kind : Kind) (id message : Nat) : Frame :=
  match kind with
  | .plain => ⟨none, message⟩
  | .id => ⟨some id, message⟩

/-- The buffer of a call goes out of scope: bytes drop nothing, an
`IdPointerMsg` drops its box. -/
def dropBuffer (p : MessagePipe) (kind : Kind) (frame : Frame) : MessagePipe :=
  match kind with
  | .plain => p
  | .id => p.free frame.message

/-! ## Sending -/

/-- One poll of `send_message`. -/
def pollSend (kind : Kind) (p : MessagePipe) (i : Nat) (dir : Bool) (frame : Frame)
    (aborted : Bool) : Send → Option MessagePipe
  | .created =>
    -- the write is made and polled at once
    if aborted then some ((p.dropBuffer kind frame).setCall i (.send dir frame (.ended none)))
    else some (p.setCall i (.send dir frame (.writing none)))
  | .writing none =>
    if aborted then some (p.setCall i (.send dir frame (.dropping none))) else some p
  | .writing (some (.ok ())) => some (p.setCall i (.send dir frame (.ended (some (.ok ())))))
  | .writing (some (.error e)) =>
    some ((p.free frame.message).setCall i (.send dir frame (.ended (some (.error e)))))
  | _ => none

/-- The future is dropped: first the write, which waits if it is on its way,
and then the buffer. -/
def dropSend (kind : Kind) (p : MessagePipe) (i : Nat) (dir : Bool) (frame : Frame)
    (inTask : Bool) : Send → Option MessagePipe
  | .created => some ((p.free frame.message).setCall i (.send dir frame (.ended none)))
  | .writing none =>
    if inTask then some (p.setCall i (.send dir frame (.dropping none)))
    -- the drop of the write panics, and the buffer is dropped all the same
    else some ((p.dropBuffer kind frame).setCall i (.send dir frame .orphaned))
  | .writing (some result) => some (p.setCall i (.send dir frame (.dropping (some result))))
  | _ => none

def droppedSend (kind : Kind) (p : MessagePipe) (i : Nat) (dir : Bool) (frame : Frame) :
    Send → Option MessagePipe
  | .dropping (some _) =>
    some ((p.dropBuffer kind frame).setCall i (.send dir frame (.ended none)))
  | _ => none

/-- The kernel completes a write: the frame is in the pipe if there is no
error. -/
def writeFrame (p : MessagePipe) (i : Nat) (dir : Bool) (frame : Frame)
    (result : Except Errno Unit) (state : Send) : Option MessagePipe :=
  let p := match result with
    | .ok () => p.push dir frame
    | .error _ => p
  match state with
  | .writing none => some (p.setCall i (.send dir frame (.writing (some result))))
  | .dropping none => some (p.setCall i (.send dir frame (.dropping (some result))))
  | .orphaned => some (p.setCall i (.send dir frame (.ended none)))
  | _ => none

/-! ## Receiving -/

/-- One poll of `recv_message`. A future that panics is dropped if it is
that of an `async fn`. -/
def pollRecv (kind : Kind) (p : MessagePipe) (i : Nat) (dir : Bool) (aborted : Bool) :
    Recv → Option MessagePipe
  | .created =>
    if aborted then
      match kind with
      | .plain => some p
      | .id => some (p.setCall i (.recv dir (.ended none)))
    else some (p.setCall i (.recv dir (.reading none)))
  | .reading none =>
    if aborted then
      match kind with
      | .plain => some p
      | .id => some (p.setCall i (.recv dir (.dropping none)))
    else some p
  | .reading (some (.ok (some frame))) =>
    some ((p.deliver frame).setCall i (.recv dir (.ended (some (.ok frame)))))
  | .reading (some (.ok none)) => some (p.setCall i (.recv dir (.ended (some (.error epipe)))))
  | .reading (some (.error e)) => some (p.setCall i (.recv dir (.ended (some (.error e)))))
  | _ => none

/-- The future is dropped. The buffer of a plain read is shared with the
completion, so that nobody waits for the read. -/
def dropRecv (kind : Kind) (p : MessagePipe) (i : Nat) (dir : Bool) (inTask : Bool) :
    Recv → Option MessagePipe
  | .created => some (p.setCall i (.recv dir (.ended none)))
  | .reading none =>
    match kind, inTask with
    | .id, true => some (p.setCall i (.recv dir (.dropping none)))
    | _, _ => some (p.setCall i (.recv dir .orphaned))
  | .reading (some result) => some (p.setCall i (.recv dir (.dropping (some result))))
  | _ => none

def droppedRecv (p : MessagePipe) (i : Nat) (dir : Bool) : Recv → Option MessagePipe
  | .dropping (some _) => some (p.setCall i (.recv dir (.ended none)))
  | _ => none

/-- The kernel completes a read. -/
def answerRead (p : MessagePipe) (dir : Bool) :
    Answer → Option (Except Errno (Option Frame) × MessagePipe)
  | .frame => (p.pop dir).map fun (frame, p) => (.ok (some frame), p)
  | .eof => some (.ok none, p)
  | .error e => some (.error e, p)

def readFrame (p : MessagePipe) (i : Nat) (dir : Bool) (answer : Answer) (state : Recv) :
    Option MessagePipe :=
  match p.answerRead dir answer with
  | none => none
  | some (result, p) =>
    match state with
    | .reading none => some (p.setCall i (.recv dir (.reading (some result))))
    | .dropping none => some (p.setCall i (.recv dir (.dropping (some result))))
    | .orphaned => some (p.setCall i (.recv dir (.ended none)))
    | _ => none

/-! ## The system -/

def next (kind : Kind) (p : MessagePipe) : Label → Option MessagePipe
  | .sendMessage dir id => some { p with
      calls := p.calls ++ [.send dir (buffer kind id p.made) .created], made := p.made + 1 }
  | .recvMessage dir => some { p with calls := p.calls ++ [.recv dir .created] }
  | .poll i aborted =>
    match p.calls[i]? with
    | some (.send dir frame state) => pollSend kind p i dir frame aborted state
    | some (.recv dir state) => pollRecv kind p i dir aborted state
    | none => none
  | .drop i inTask =>
    match p.calls[i]? with
    | some (.send dir frame state) => dropSend kind p i dir frame inTask state
    | some (.recv dir state) => dropRecv kind p i dir inTask state
    | none => none
  | .dropped i =>
    match p.calls[i]? with
    | some (.send dir frame state) => droppedSend kind p i dir frame state
    | some (.recv dir state) => droppedRecv p i dir state
    | none => none
  | .write i result =>
    match p.calls[i]? with
    | some (.send dir frame state) => writeFrame p i dir frame result state
    | _ => none
  | .read i answer =>
    match p.calls[i]? with
    | some (.recv dir state) => readFrame p i dir answer state
    | _ => none
  | .sendMessageSync dir id result =>
    let made := { p with made := p.made + 1 }
    match result with
    | .ok () => some (made.push dir (buffer kind id p.made))
    | .error _ => some (made.free p.made)
  | .recvMessageSync dir answer =>
    match p.answerRead dir answer with
    | some (.ok (some frame), p) => some (p.deliver frame)
    | some (_, p) => some p
    | none => none

end MessagePipe

/-- A pipe with everything that its callers and the kernel may do. -/
def pipes (kind : Kind) : System MessagePipe Label := ⟨.new, MessagePipe.next kind⟩

end Kimojio.Pipe
