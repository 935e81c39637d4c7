import Kimojio.Frames
import Kimojio.Resolver.Addresses
import Kimojio.Stream.ReadState
import Kimojio.Transition

/-!
# Kimojio.Resolver.Exchange

Model of `resolve` and of the Varlink exchange of `kimojio/src/resolver.rs`,
for any number of calls on one thread.

A call runs until its next await point, where it is suspended (`Await`). A
label of the system is one thing that happens to a suspended call, or at the
other end of a socket: an operation ends with some result, the future of the
call is dropped, the server answers a request. Between two labels the code
runs alone, so a label carries the call to its next await point or to its end.

The buffer of `OwnedFdStream` is the list of the bytes that it holds and has
not handed out. An operation whose future is dropped is cancelled, and the
drop waits for it; it may still have moved some bytes, as many as the label
says.
-/

namespace Kimojio.Resolver

open FdStream (readBufferSize)

/-- How much spare capacity each read adds to the reply buffer. -/
def varlinkReadChunk : Nat := 4096

inductive ResolverMode where
  | unknown
  | varlink
  | blocking
  deriving DecidableEq, Repr

inductive ExchangeError where
  | transport
  | response (error : ResolveError)

/-! ## the connection -/

/-- A connection: its socket, the bytes in the buffer of its stream, and the
reply buffer. -/
structure VarlinkConnection where
  socket : Nat
  available : List UInt8
  input : List UInt8

/-- What a future gives: a value, or a suspension. -/
inductive Poll (α β : Type) where
  | ready (value : α)
  | pending (place : β)

namespace VarlinkConnection

/-- `VarlinkConnection::new` -/
def new (socket : Nat) : VarlinkConnection := ⟨socket, [], []⟩

/-- The first half of the loop of `read_frame`: takes a frame out of the reply
buffer, or finds the buffer too long. -/
def takeFrame (c : VarlinkConnection) :
    Option (Except ExchangeError (List UInt8) × VarlinkConnection) :=
  let tooLong := protocolError "reply exceeded the 65536-byte limit"
  match c.input.findIdx? (· = 0) with
  | some terminator =>
    if terminator > maxVarlinkReplySize then
      some (.error (.response tooLong), { c with input := [] })
    else
      let frame := c.input.take (terminator + 1)
      let c := { c with input := c.input.drop (terminator + 1) }
      if frame.getLast? ≠ some 0 then
        some (.error (.response (protocolError "reply did not end with a NUL byte")), c)
      else some (.ok frame.dropLast, c)
  | none =>
    if c.input.length > maxVarlinkReplySize then
      some (.error (.response tooLong), { c with input := [] })
    else none

/-- The spare capacity that the next read fills. -/
def readSize (c : VarlinkConnection) : Nat :=
  min (maxVarlinkReplySize + 1 - c.input.length) varlinkReadChunk

/-- Hands bytes of the stream out into `size` bytes behind the first `filled`. -/
def copyOut (c : VarlinkConnection) (filled size : Nat) : VarlinkConnection :=
  let tocopy := min size c.available.length
  { c with
    available := c.available.drop tocopy
    input := c.input.take filled ++ c.available.take tocopy }

theorem length_copyOut {c : VarlinkConnection} (filled : Nat)
    (h : min size c.available.length ≠ 0) :
    (c.copyOut filled size).available.length < c.available.length := by
  simp only [copyOut, List.length_drop]
  omega

/-- `read_frame`, until it returns or waits for the socket with `filled` bytes
in the reply buffer. The spare capacity is zeroed before the wait. -/
def readFrame (c : VarlinkConnection) :
    Poll (Except ExchangeError (List UInt8)) Nat × VarlinkConnection :=
  match c.takeFrame with
  | some (result, c) => (.ready result, c)
  | none =>
    let filled := c.input.length
    if c.available = [] then
      (.pending filled, { c with input := c.input ++ List.replicate c.readSize 0 })
    else if _h : min c.readSize c.available.length = 0 then
      (.ready (.error .transport), c.copyOut filled c.readSize)
    else (c.copyOut filled c.readSize).readFrame
termination_by c.available.length
decreasing_by exact length_copyOut _ _h

/-- `read_frame` after the read it waited for: the socket gave `chunk`. -/
def resumeReadFrame (c : VarlinkConnection) (filled : Nat) (chunk : List UInt8) :
    Poll (Except ExchangeError (List UInt8)) Nat × VarlinkConnection :=
  if chunk = [] then (.ready (.error .transport), { c with input := c.input.take filled })
  else
    let size := c.input.length - filled
    let c := { c with available := chunk }.copyOut filled size
    if min size chunk.length = 0 then (.ready (.error .transport), c) else c.readFrame

end VarlinkConnection

/-! ## calls, sockets and the thread -/

/-- Where a call waits. `retry` tells the second exchange from the first. -/
inductive Await where
  | lock
  | socket (retry : Bool)
  | connect (retry : Bool)
  | write (retry : Bool) (rest : List UInt8)
  | read (retry : Bool) (filled : Nat)
  | blocking

/-- Where the result of a call comes from. -/
inductive Path where
  | literal
  | lock
  | varlink
  | blocking
  deriving DecidableEq, Repr

abbrev ResolveResult := Except ResolveError (List SocketAddr)

inductive CallState where
  | waiting (place : Await)
  | returned (result : ResolveResult) (path : Path)
  | dropped

/-- A call of `resolve`. -/
structure Call where
  host : Str
  port : UInt16
  state : CallState

/-- A connected socket: the bytes written to it, each with the call that wrote
it; the replies of the server so far; and the bytes on their way back. -/
structure Socket where
  sent : List (Nat × UInt8)
  replies : List (List UInt8)
  incoming : List UInt8

/-- A new socket. -/
def Socket.new : Socket := ⟨[], [], []⟩

/-- The requests that the server has received in full, each with its NUL byte. -/
def Socket.requests (s : Socket) : List (List (Nat × UInt8)) :=
  (Frames.split (fun b => decide (b.2 = 0)) s.sent).1

/-- The resolver state of the thread, its lock, its calls and its sockets.
Calls and sockets are named by their position. -/
structure Thread where
  mode : ResolverMode
  connection : Option VarlinkConnection
  lockedBy : Option Nat
  calls : List Call
  sockets : List Socket

namespace Thread

/-- The thread before the first call. -/
def initial : Thread := ⟨.unknown, none, none, [], []⟩

/-- Moves call `i` on. -/
def setCall (t : Thread) (i : Nat) (state : CallState) : Thread :=
  { t with calls := t.calls.modify i fun call => { call with state } }

/-- Changes socket `s`. -/
def setSocket (t : Thread) (s : Nat) (f : Socket → Socket) : Thread :=
  { t with sockets := t.sockets.modify s f }

/-- `PreferredOutcome::Reply`: the result of the call. -/
def replied (t : Thread) (i : Nat) (result : ResolveResult) : Thread :=
  { t with mode := .varlink, lockedBy := none }.setCall i (.returned result .varlink)

/-- `PreferredOutcome::TransportFailure`: the call goes on without the lock. -/
def transportFailure (t : Thread) (i : Nat) : Thread :=
  { t with mode := .blocking, lockedBy := none }.setCall i (.waiting .blocking)

/-- The end of an exchange. -/
def exchanged (t : Thread) (i : Nat) (retry : Bool) :
    Except ExchangeError (List SocketAddr) → Thread
  | .ok addresses => t.replied i (.ok addresses)
  | .error (.response error) =>
    match error with
    | .protocol _ => { t with connection := none }.replied i (.error error)
    | _ => t.replied i (.error error)
  | .error .transport =>
    let t := { t with connection := none }
    if retry then t.transportFailure i else t.setCall i (.waiting (.socket true))

/-- What `exchange_varlink` makes of a frame. -/
def decoded (call : Call) : Except ExchangeError (List UInt8) →
    Except ExchangeError (List SocketAddr)
  | .error error => .error error
  | .ok frame => (decodeVarlinkReply frame call.host call.port).mapError .response

/-- The call goes on with what `read_frame` gave. -/
def afterReadFrame (t : Thread) (i : Nat) (call : Call) (retry : Bool) :
    Poll (Except ExchangeError (List UInt8)) Nat × VarlinkConnection → Thread
  | (.pending filled, c) =>
    { t with connection := some c }.setCall i (.waiting (.read retry filled))
  | (.ready result, c) => { t with connection := some c }.exchanged i retry (decoded call result)

/-- `write` with `rest` still to be written, then `read_frame`. -/
def exchange (t : Thread) (i : Nat) (call : Call) (retry : Bool) (c : VarlinkConnection)
    (rest : List UInt8) : Thread :=
  if rest = [] then t.afterReadFrame i call retry c.readFrame
  else t.setCall i (.waiting (.write retry rest))

/-- The exchange over the connection there is. -/
def startExchange (t : Thread) (i : Nat) (call : Call) (retry : Bool) (request : List UInt8) :
    Thread :=
  match t.connection with
  | some c => t.exchange i call retry c request
  | none => t.transportFailure i

/-- `preferred_lookup`, under the lock. -/
def preferredLookup (t : Thread) (i : Nat) (call : Call) : Thread :=
  match encodeVarlinkRequest call.host with
  | .error error => t.replied i (.error error)
  | .ok request =>
    match t.connection with
    | none => t.setCall i (.waiting (.socket false))
    | some _ => t.startExchange i call false request

/-- The call takes the lock. -/
def locked (t : Thread) (i : Nat) (call : Call) : Thread :=
  if t.mode ≠ .blocking then { t with lockedBy := some i }.preferredLookup i call
  else t.setCall i (.waiting .blocking)

/-- The call has a connection. -/
def connected (t : Thread) (i : Nat) (call : Call) (retry : Bool) : Thread :=
  let t := { t with
    connection := some (.new t.sockets.length)
    sockets := t.sockets ++ [Socket.new] }
  match encodeVarlinkRequest call.host with
  | .error error => t.replied i (.error error)
  | .ok request => t.startExchange i call retry request

end Thread

/-! ## labels -/

/-- What can happen. An operation that fails has no amount. -/
inductive Label where
  /-- `resolve` is called, and its future polled. -/
  | resolve (host : Str) (port : UInt16)
  /-- A call that waits for the lock is polled. -/
  | wake (call : Nat)
  /-- A wait for the lock is cancelled. -/
  | cancel (call : Nat)
  /-- `socket` ends. -/
  | socket (call : Nat) (ok : Bool)
  /-- `connect_unix` ends. -/
  | connect (call : Nat) (ok : Bool)
  /-- A write ends. -/
  | write (call : Nat) (amount : Option Nat)
  /-- A read ends. -/
  | read (call : Nat) (amount : Option Nat)
  /-- `resolve_blocking` ends. -/
  | blocking (call : Nat) (result : ResolveResult)
  /-- A suspended call is dropped; its operation has moved `amount` bytes. -/
  | drop (call : Nat) (amount : Nat)
  /-- The server answers the next request on a socket. -/
  | serve (socket : Nat) (reply : List UInt8)

namespace Thread

/-- The call that waits at `i`. -/
def waiting? (t : Thread) (i : Nat) : Option (Call × Await) :=
  match t.calls[i]? with
  | some call =>
    match call.state with
    | .waiting place => some (call, place)
    | _ => none
  | none => none

/-- A new call. -/
def resolve (parseIp : Str → Option IpAddr) (t : Thread) (host : Str) (port : UInt16) : Thread :=
  match parseAddressLiteral parseIp host port with
  | some address =>
    { t with calls := t.calls ++ [⟨host, port, .returned (.ok [address]) .literal⟩] }
  | none =>
    let call : Call := ⟨host, port, .waiting .lock⟩
    let t' := { t with calls := t.calls ++ [call] }
    if t.lockedBy = none then t'.locked t.calls.length call else t'

/-- `amount` bytes of `rest` reach the socket. -/
def send (t : Thread) (i : Nat) (s : Nat) (rest : List UInt8) (amount : Nat) : Thread :=
  t.setSocket s fun socket =>
    { socket with sent := socket.sent ++ (rest.take amount).map fun b => (i, b) }

/-- A write ends. -/
def wrote (t : Thread) (i : Nat) (call : Call) (retry : Bool) (rest : List UInt8) :
    Option Nat → Option Thread
  | none => some (t.exchanged i retry (.error .transport))
  | some amount =>
    match t.connection with
    | none => none
    | some c =>
      if amount > rest.length then none
      else if amount = 0 then some (t.exchanged i retry (.error .transport))
      else some ((t.send i c.socket rest amount).exchange i call retry c (rest.drop amount))

/-- A read ends. -/
def readEnds (t : Thread) (i : Nat) (call : Call) (retry : Bool) (filled : Nat) :
    Option Nat → Option Thread
  | none => some (t.exchanged i retry (.error .transport))
  | some amount =>
    match t.connection with
    | none => none
    | some c =>
      match t.sockets[c.socket]? with
      | none => none
      | some socket =>
        if amount > min readBufferSize socket.incoming.length then none
        else
          let t := t.setSocket c.socket fun socket =>
            { socket with incoming := socket.incoming.drop amount }
          some (t.afterReadFrame i call retry
            (c.resumeReadFrame filled (socket.incoming.take amount)))

/-- A suspended call is dropped, and with it the lock it holds. -/
def dropped (t : Thread) (i : Nat) (amount : Nat) : Await → Option Thread
  | .lock | .blocking => some (t.setCall i .dropped)
  | .socket _ | .connect _ => some ({ t with lockedBy := none }.setCall i .dropped)
  | .write _ rest =>
    match t.connection with
    | none => none
    | some c =>
      if amount > rest.length then none
      else some ({ t.send i c.socket rest amount with lockedBy := none }.setCall i .dropped)
  | .read _ _ =>
    match t.connection with
    | none => none
    | some c =>
      let t := t.setSocket c.socket fun socket =>
        { socket with incoming := socket.incoming.drop (min readBufferSize amount) }
      some ({ t with lockedBy := none }.setCall i .dropped)

/-- The server answers the next request: a reply frame has no NUL byte but its
last. -/
def serve (t : Thread) (s : Nat) (reply : List UInt8) : Option Thread :=
  match t.sockets[s]? with
  | none => none
  | some socket =>
    if socket.replies.length < socket.requests.length ∧ 0 ∉ reply then
      some (t.setSocket s fun socket =>
        { socket with
          replies := socket.replies ++ [reply]
          incoming := socket.incoming ++ (reply ++ [0]) })
    else none

/-- One thing happens. -/
def next (parseIp : Str → Option IpAddr) (t : Thread) : Label → Option Thread
  | .resolve host port => some (t.resolve parseIp host port)
  | .wake i =>
    match t.waiting? i with
    | some (call, .lock) => some (if t.lockedBy = none then t.locked i call else t)
    | _ => none
  | .cancel i =>
    match t.waiting? i with
    | some (_, .lock) => some (t.setCall i (.returned (.error .canceled) .lock))
    | _ => none
  | .socket i ok =>
    match t.waiting? i with
    | some (_, .socket retry) =>
      some (if ok then t.setCall i (.waiting (.connect retry)) else t.transportFailure i)
    | _ => none
  | .connect i ok =>
    match t.waiting? i with
    | some (call, .connect retry) =>
      some (if ok then t.connected i call retry else t.transportFailure i)
    | _ => none
  | .write i amount =>
    match t.waiting? i with
    | some (call, .write retry rest) => t.wrote i call retry rest amount
    | _ => none
  | .read i amount =>
    match t.waiting? i with
    | some (call, .read retry filled) => t.readEnds i call retry filled amount
    | _ => none
  | .blocking i result =>
    match t.waiting? i with
    | some (_, .blocking) => some (t.setCall i (.returned result .blocking))
    | _ => none
  | .drop i amount =>
    match t.waiting? i with
    | some (_, place) => t.dropped i amount place
    | none => none
  | .serve s reply => t.serve s reply

end Thread

/-- The resolver of a thread, with the sockets it opens. -/
def system (parseIp : Str → Option IpAddr) : System Thread Label where
  start := .initial
  next := Thread.next parseIp

end Kimojio.Resolver
