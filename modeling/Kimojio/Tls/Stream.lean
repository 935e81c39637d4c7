import Kimojio.Tls.Handshake

/-!
# Kimojio.Tls.Stream

The calls of a `TlsStream` and of the two halves into which it is split.

All of them are loops around OpenSSL. A call of it succeeds, or it asks for
bytes from the peer or for room, and then the loop reads or writes the socket
and calls again. A stream that is not split has its socket for itself; the
halves share the OpenSSL object, and each locks the socket it uses, which for
a write that must read is the socket of the other half.

One step of the system is one round of one call. A call that was resumed goes
on, round by round, until it is suspended or returns; only then does the other
half move, and only a suspended call can be dropped. Next to the state stand
records of what has happened: the bytes that went through the socket, and the
slices that `SSL_write` was called with.
-/

namespace Kimojio.Tls

open Kimojio.Ring (Errno)

/-! ## The calls of OpenSSL -/

/-- The largest length that fits in a `c_int`. -/
def cIntMax : Nat := 2147483647

/-- Of a call on `len` bytes, of which OpenSSL handles `len` at most. -/
def sslIoResponse (len : Nat) (a : Answer) : Response :=
  if 0 < a.result then .success (min a.result.toNat len) else sslErrorResponse a.error a.stack

def handleIoFailure (a : Answer) : Response :=
  if 0 < a.result then .success a.result.toNat
  else if a.result = 0 then .eof
  else sslErrorResponse a.error a.stack

namespace TlsServer

/-- A buffer of `len` bytes is read or written. OpenSSL is not called for an
empty one, or for one that is too long for it. -/
def transfer (len : Nat) (a : Answer) (ssl : TlsServer) : TlsServer × Response :=
  if len = 0 then (ssl, .success 0)
  else if cIntMax < len then (ssl, .fail (.errno inval))
  else (ssl.exchange a, sslIoResponse len a)

def read (len : Nat) := transfer len

def write (buffer : List UInt8) := transfer buffer.length

def shutdown (a : Answer) (ssl : TlsServer) : TlsServer × Response :=
  (ssl.exchange a, if a.result = 0 then .wantWrite else handleIoFailure a)

end TlsServer

/-! ## The sockets -/

inductive Half where
  | read
  | write
  deriving DecidableEq, Repr

/-- The socket of a whole stream, or the two sockets of its halves with their
locks. -/
inductive Sockets where
  | whole (socket : Option Nat)
  | shared (readSocket writeSocket : Option Nat) (readLocked writeLocked : Bool)
  deriving DecidableEq, Repr

inductive Lock where
  | granted (sockets : Sockets)
  | waiting
  | canceled

namespace Sockets

def isWhole : Sockets → Bool
  | .whole _ => true
  | .shared .. => false

def socket : Half → Sockets → Option Nat
  | _, .whole s => s
  | .read, .shared r _ _ _ => r
  | .write, .shared _ w _ _ => w

def setLocked (value : Bool) : Half → Sockets → Sockets
  | _, .whole s => .whole s
  | .read, .shared r w _ wl => .shared r w value wl
  | .write, .shared r w rl _ => .shared r w rl value

def isLocked : Half → Sockets → Bool
  | _, .whole _ => false
  | .read, .shared _ _ rl _ => rl
  | .write, .shared _ _ _ wl => wl

/-- `read_socket` and `write_socket`. A whole stream has no locks. -/
def lock (half : Half) (canceled : Bool) : Sockets → Lock
  | .whole s => .granted (.whole s)
  | sockets =>
    if canceled then .canceled
    else if sockets.isLocked half then .waiting
    else .granted (sockets.setLocked true half)

/-- The socket is taken out. -/
def take : Half → Sockets → Sockets
  | _, .whole _ => .whole none
  | .read, .shared _ w rl wl => .shared none w rl wl
  | .write, .shared r _ rl wl => .shared r none rl wl

end Sockets

/-- What the calls work on. -/
structure Link where
  ssl : TlsServer
  sockets : Sockets
  deriving DecidableEq

namespace Link

def setLocked (value : Bool) (half : Half) (s : Link) : Link :=
  { s with sockets := s.sockets.setLocked value half }

end Link

namespace TlsAnswer

/-- The number of bytes that a socket write of `len` bytes has written. -/
def amount (t : TlsAnswer) (len : Nat) : Nat :=
  match t.wrote with
  | some (.ok amount) => min amount len
  | _ => 0

/-- The bytes that a socket read of `len` bytes has read. -/
def bytes (t : TlsAnswer) (len : Nat) : List UInt8 :=
  match t.read with
  | some (.ok bytes) => bytes.take len
  | _ => []

end TlsAnswer

/-- What the environment answers in one round: also whether a wait for a lock
is cancelled, and how `close` ends. -/
structure LinkAnswer extends TlsAnswer where
  canceled : Bool
  closed : Option (Option Errno)

/-! ## Reading and writing the socket -/

/-- The places of a function that starts with a lock. -/
inductive Locked (κ : Type) where
  | locking
  | inside (k : κ)
  deriving DecidableEq, Repr

/-- A function that has the lock until it returns. -/
def lockedRound (half : Half) (enter : κ)
    (round : TlsAnswer → TlsStream → κ → TlsStream × Resume κ CallEnd) (t : LinkAnswer)
    (s : Link) : Locked κ → Link × Resume (Locked κ) CallEnd
  | .locking =>
    match s.sockets.lock half t.canceled with
    | .granted sockets => ({ s with sockets := sockets }, .goto (.inside enter))
    | .waiting => (s, .suspend .locking)
    | .canceled => (s, .ret (.error .canceled))
  | .inside k =>
    let r := round t.toTlsAnswer ⟨s.ssl, s.sockets.socket half⟩ k
    let s := { s with ssl := r.1.ssl }
    match r.2 with
    | .goto k => (s, .goto (.inside k))
    | .suspend k => (s, .suspend (.inside k))
    | .ret v => (s.setLocked false half, .ret v)

def tryRead := lockedRound .read TryRead.enter tryReadRound

def tryWrite := lockedRound .write TryWrite.enter tryWriteRound

/-! ## The loops -/

/-- How a call of the stream ends. -/
inductive Outcome where
  | ok (amount : Nat)
  | error (code : Errno)
  | panicked
  deriving DecidableEq, Repr

/-- The loops, with the variables that change from turn to turn. -/
inductive Loop where
  | tryRead (len : Nat)
  | read (len : Nat)
  /-- The rest of a buffer, and the buffers that follow it. -/
  | write (buffer : List UInt8) (rest : List (List UInt8))
  | shutdown
  deriving DecidableEq, Repr

/-- The places in a call. -/
inductive Place where
  /-- At the head of a loop. -/
  | head (loop : Loop)
  | reading (loop : Loop) (k : Locked TryRead)
  | writing (loop : Loop) (k : Locked TryWrite)
  /-- In `handle_tls_error`, before the lock of a socket. -/
  | failing (half : Half) (loop : Loop) (e : TlsServerError)
  /-- In the `try_write` after the last buffer. -/
  | flushing (k : Locked TryWrite)
  | close (half : Half) (cause : Outcome)
  | closing (cause : Outcome)
  | handshake (side : Side) (k : Handshake)
  deriving DecidableEq, Repr

namespace Loop

/-- The half that the loop belongs to. -/
def half : Loop → Half
  | .tryRead _ | .read _ => .read
  | .write .. | .shutdown => .write

/-- `?`: the wrapper of the loop closes the socket. -/
def fail (loop : Loop) (e : Errno) : Resume Place Outcome := .goto (.close loop.half (.error e))

/-- `?`, and the next turn. -/
def proceed (loop : Loop) : CallEnd → Resume Place Outcome
  | .ok => .goto (.head loop)
  | .error e => loop.fail e
  | .panicked => .ret .panicked

/-- After `try_read`. A shutdown takes a broken pipe for its end, and goes on
after any other error. -/
def proceedRead : Loop → CallEnd → Resume Place Outcome
  | .shutdown, .error e => if e = pipe then .ret (.ok 0) else .goto (.head .shutdown)
  | loop, result => loop.proceed result

/-- `Success(amount)`. -/
def success (amount : Nat) : Loop → Resume Place Outcome
  | .tryRead _ => .ret (.ok amount)
  | .read len => .goto (.head (.read (len - amount)))
  | .write buffer rest => .goto (.head (.write (buffer.drop amount) rest))
  | .shutdown => .ret (.ok 0)

/-- `Eof`. -/
def eof : Loop → Resume Place Outcome
  | .tryRead _ => .ret (.ok 0)
  | .read len => (Loop.read len).fail pipe
  | .write buffer rest => (Loop.write buffer rest).fail pipe
  | .shutdown => .ret (.ok 0)

def respond (loop : Loop) : Response → Resume Place Outcome
  | .success amount => loop.success amount
  | .fail e => .goto (.failing .read loop e)
  | .wantRead => .goto (.reading loop .locking)
  | .wantWrite => .goto (.writing loop .locking)
  | .eof => loop.eof

/-- The call of OpenSSL at the head of the loop. -/
def call : Loop → Answer → TlsServer → TlsServer × Response
  | .tryRead len | .read len => TlsServer.read len
  | .write buffer _ => TlsServer.write buffer
  | .shutdown => TlsServer.shutdown

/-- The head of the loop, where a loop may also be over. -/
def headRound (t : LinkAnswer) (s : Link) (loop : Loop) : Link × Resume Place Outcome :=
  match loop with
  | .read 0 => (s, .ret (.ok 0))
  | .write [] [] => (s, .goto (.flushing .locking))
  | .write [] (buffer :: rest) => (s, .goto (.head (.write buffer rest)))
  | loop =>
    let r := loop.call t.ssl s.ssl
    ({ s with ssl := r.1 }, loop.respond r.2)

end Loop

def tryReadImpl (len : Nat) : Place := .head (.tryRead len)

def readImpl (len : Nat) : Place := .head (.read len)

def writevImpl (buffers : List (List UInt8)) : Place := .head (.write [] buffers)

def writeImpl (buffer : List UInt8) : Place := .head (.write buffer [])

def shutdownImpl : Place := .head .shutdown

/-- `handle_tls_error`: the read socket is locked, and then the write socket. -/
def failingRound (t : LinkAnswer) (s : Link) (loop : Loop) (e : TlsServerError) :
    Half → Link × Resume Place Outcome
  | .read =>
    match s.sockets.lock .read t.canceled with
    | .granted sockets => ({ s with sockets := sockets }, .goto (.failing .write loop e))
    | .waiting => (s, .suspend (.failing .read loop e))
    | .canceled => (s, loop.fail .canceled)
  | .write =>
    match s.sockets.lock .write t.canceled with
    | .granted sockets =>
      let isSome := (sockets.socket .read).isSome && (sockets.socket .write).isSome
      (({ s with sockets := sockets }.setLocked false .write).setLocked false .read,
        loop.fail (if isSome then asIoError e else pipe))
    | .waiting => (s, .suspend (.failing .write loop e))
    | .canceled => (s.setLocked false .read, loop.fail .canceled)

/-- `close_impl`, `close_read_because` and `close_write_because`, up to the
call of `close`. -/
def closeRound (t : LinkAnswer) (s : Link) (half : Half) (cause : Outcome) :
    Link × Resume Place Outcome :=
  match s.sockets.lock half t.canceled with
  | .granted sockets =>
    ({ s with sockets := (sockets.take half).setLocked false half },
      if (sockets.socket half).isSome then .goto (.closing cause) else .ret (.error pipe))
  | .waiting => (s, .suspend (.close half cause))
  | .canceled => (s, .ret (.error .canceled))

def closingRound (t : LinkAnswer) (cause : Outcome) : Resume Place Outcome :=
  match t.closed with
  | none => .suspend (.closing cause)
  | some (some e) => .ret (.error e)
  | some none => .ret cause

def CallEnd.outcome : CallEnd → Outcome
  | .ok => .ok 0
  | .error e => .error e
  | .panicked => .panicked

/-- After the flush of `write` and `writev`. -/
def flushed : CallEnd → Resume Place Outcome
  | .ok => .ret (.ok 0)
  | .error e => .goto (.close .write (.error e))
  | .panicked => .ret .panicked

namespace Place

/-- One round of a call. -/
def round (t : LinkAnswer) (s : Link) : Place → Link × Resume Place Outcome
  | .head loop => loop.headRound t s
  | .reading loop k =>
    let r := tryRead t s k
    (r.1, r.2.call (.reading loop) loop.proceedRead)
  | .writing loop k =>
    let r := tryWrite t s k
    (r.1, r.2.call (.writing loop) loop.proceed)
  | .failing half loop e => failingRound t s loop e half
  | .flushing k =>
    let r := tryWrite t s k
    (r.1, r.2.call .flushing flushed)
  | .close half cause => closeRound t s half cause
  | .closing cause => (s, closingRound t cause)
  | .handshake side k =>
    let r := side.round t.toTlsAnswer ⟨s.ssl, s.sockets.socket .read⟩ k
    ({ s with ssl := r.1.ssl }, r.2.call (.handshake side) fun v => .ret v.outcome)

end Place

/-! ## What a call holds -/

/-- The lease of a call on the BIO pair: the direction, and the length. -/
abbrev Lease := Option (ApplicationBioDirection × Nat)

def TryRead.holds : TryRead → Lease
  | .enter => none
  | .reading len => some (.write, len)

def TryWrite.holds : TryWrite → Lease
  | .enter | .lease => none
  | .writing len => some (.read, len)

def Handshake.holds : Handshake → Lease
  | .call => none
  | .reading k => k.holds
  | .writing k => k.holds

/-- The lease after a round. -/
def leaseAfter (holds : κ → Lease) : Resume κ ρ → Lease
  | .goto k | .suspend k => holds k
  | .ret _ => none

/-- A lease is dropped. -/
def ApplicationBio.release (bio : ApplicationBio) : Lease → ApplicationBio
  | none => bio
  | some (d, _) => bio.leaveCallback d

namespace Locked

def holds (inner : κ → Lease) : Locked κ → Lease
  | .locking => none
  | .inside k => inner k

def locks (half : Half) : Locked κ → Option Half
  | .locking => none
  | .inside _ => some half

end Locked

namespace Place

def holds : Place → Lease
  | .reading _ k => k.holds TryRead.holds
  | .writing _ k | .flushing k => k.holds TryWrite.holds
  | .handshake _ k => k.holds
  | .head _ | .failing .. | .close .. | .closing _ => none

/-- The lock that a call has between two rounds. -/
def locks : Place → Option Half
  | .reading _ k => k.locks .read
  | .writing _ k | .flushing k => k.locks .write
  | .failing .write .. => some .read
  | .failing .read .. | .head _ | .close .. | .closing _ | .handshake .. => none

/-- The future of the call is dropped: its lease, and then its lock. -/
def drop (s : Link) (k : Place) : Link where
  ssl := { s.ssl with bio := s.ssl.bio.release k.holds }
  sockets :=
    match k.locks with
    | none => s.sockets
    | some half => s.sockets.setLocked false half

/-- The answer that OpenSSL gives in a round, if it is called in it. -/
def asks (t : LinkAnswer) : Place → Option Answer
  | .handshake _ .call => some t.ssl
  | .head (.tryRead len) | .head (.read len) =>
    if 0 < len ∧ len ≤ cIntMax then some t.ssl else none
  | .head (.write buffer _) =>
    if 0 < buffer.length ∧ buffer.length ≤ cIntMax then some t.ssl else none
  | .head .shutdown => some t.ssl
  | _ => none

end Place

/-! ## The system -/

/-- The calls of the user. -/
inductive Call where
  | handshake (side : Side)
  | tryRead (len : Nat)
  | read (len : Nat)
  | write (buffer : List UInt8)
  | writev (buffers : List (List UInt8))
  | shutdown
  | close
  deriving DecidableEq, Repr

namespace Call

def half : Call → Half
  | .handshake _ | .tryRead _ | .read _ => .read
  | .write _ | .writev _ | .shutdown | .close => .write

def place : Call → Place
  | .handshake side => .handshake side .call
  | .tryRead len => tryReadImpl len
  | .read len => readImpl len
  | .write buffer => writeImpl buffer
  | .writev buffers => writevImpl buffers
  | .shutdown => shutdownImpl
  | .close => .close .write (.ok 0)

/-- The buffers that a call writes. -/
def buffers : Call → Option (List (List UInt8))
  | .write buffer => some [buffer]
  | .writev buffers => some buffers
  | _ => none

/-- Only a whole stream has a handshake. -/
def needsWhole : Call → Bool
  | .handshake _ => true
  | _ => false

end Call

inductive Slot where
  | idle
  | running (call : Call) (k : Place)
  | ended (call : Call) (result : Outcome)
  deriving DecidableEq

def Slot.isRunning : Slot → Bool
  | .running .. => true
  | _ => false

/-- One call of `SSL_write`. -/
structure Offer where
  slice : List UInt8
  amount : Nat
  deriving DecidableEq, Repr

/-- What OpenSSL has taken over. -/
def Offer.accepted (o : Offer) : List UInt8 := o.slice.take o.amount

structure Session where
  link : Link
  reader : Slot
  writer : Slot
  /-- The half whose call is being polled. -/
  turn : Option Half
  /-- The bytes that OpenSSL has to send and that did not fit. -/
  pending : List UInt8
  /-- The bytes under the lease of a socket write. -/
  leased : List UInt8
  sent : List UInt8
  /-- What the present or last call of `write` or `writev` has offered. -/
  offers : List Offer
  deriving DecidableEq

/-- What the socket would have reported to a write that was dropped. -/
def dropAnswer (wrote : Nat) : TlsAnswer := ⟨⟨0, 0, [], 0, []⟩, 0, none, some (.ok wrote)⟩

inductive StreamLabel where
  | start (call : Call)
  | round (half : Half) (t : LinkAnswer)
  /-- A socket write of the call had written `wrote` bytes. -/
  | drop (half : Half) (wrote : Nat)
  /-- The clone of the socket is `fd`. -/
  | split (fd : Nat)

/-- The bytes in the queue. -/
def Bio.queue (bio : Bio) : List UInt8 := bio.written.drop bio.taken

/-- The bytes that are leased after a round, with the lease before and after
it. -/
def leasedAfter (bio' : ApplicationBio) (leased : List UInt8) : Lease → Lease → List UInt8
  | none, some (.read, len) => bio'.outgoing.queue.take len
  | _, _ => leased

/-- The bytes that a round sends. -/
def sentBy (t : TlsAnswer) (leased : List UInt8) : Lease → List UInt8
  | some (.read, len) => leased.take (t.amount len)
  | _ => []

namespace Session

def slot (s : Session) : Half → Slot
  | .read => s.reader
  | .write => s.writer

def setSlot (slot : Slot) (half : Half) (s : Session) : Session :=
  match half with
  | .read => { s with reader := slot }
  | .write => { s with writer := slot }

abbrev outgoing (s : Session) : Bio := s.link.ssl.bio.outgoing

/-- What `SSL_write` is called with, and what it accepts. -/
def offer (t : LinkAnswer) (s : Session) : Place → List Offer
  | .head (.write buffer _) =>
    if 0 < buffer.length ∧ buffer.length ≤ cIntMax then
      match (TlsServer.write buffer t.ssl s.link.ssl).2 with
      | .success amount => [⟨buffer, amount⟩]
      | _ => [⟨buffer, 0⟩]
    else []
  | _ => []

/-- The records after a round. -/
def record (t : LinkAnswer) (k : Place) (r : Link × Resume Place Outcome) (s : Session) : Session :=
  { s with
    link := r.1
    pending :=
      match k.asks t with
      | some a => a.puts.drop s.outgoing.room
      | none => s.pending
    leased := leasedAfter r.1.ssl.bio s.leased k.holds (leaseAfter Place.holds r.2)
    sent := s.sent ++ sentBy t.toTlsAnswer s.leased k.holds
    offers := s.offers ++ s.offer t k }

/-- Where a call is after a round. -/
def advance (half : Half) (call : Call) (r : Resume Place Outcome) (s : Session) : Session :=
  match r with
  | .goto k => { s.setSlot (.running call k) half with turn := some half }
  | .suspend k => { s.setSlot (.running call k) half with turn := none }
  | .ret v => { s.setSlot (.ended call v) half with turn := none }

/-- A call needs its half, and a whole stream has one call at a time. -/
def canStart (s : Session) (call : Call) : Bool :=
  s.turn.isNone && !(s.slot call.half).isRunning &&
    if s.link.sockets.isWhole then !s.reader.isRunning && !s.writer.isRunning
    else !call.needsWhole

def begin (call : Call) (s : Session) : Session :=
  let s := s.setSlot (.running call call.place) call.half
  if call.buffers.isSome then { s with offers := [] } else s

/-- A call is dropped. What the kernel has sent stays sent. -/
def dropCall (half : Half) (k : Place) (wrote : Nat) (s : Session) : Session :=
  { s.setSlot .idle half with
    link := k.drop s.link
    sent := s.sent ++ sentBy (dropAnswer wrote) s.leased k.holds }

def split (fd : Nat) : Sockets → Option Sockets
  | .whole (some socket) => some (.shared (some fd) (some socket) false false)
  | .whole none => some (.shared none none false false)
  | .shared .. => none

def next (s : Session) : StreamLabel → Option Session
  | .start call => if s.canStart call then some (s.begin call) else none
  | .round half t =>
    if s.turn = none ∨ s.turn = some half then
      match s.slot half with
      | .running call k =>
        let r := k.round t s.link
        some ((s.record t k r).advance half call r.2)
      | _ => none
    else none
  | .drop half wrote =>
    if s.turn = none then
      match s.slot half with
      | .running _ k => some (s.dropCall half k wrote)
      | _ => none
    else none
  | .split fd =>
    if s.turn = none ∧ !s.reader.isRunning ∧ !s.writer.isRunning then
      (split fd s.link.sockets).map fun sockets =>
        { s with link := { s.link with sockets := sockets } }
    else none

end Session

/-- A stream that was just made, with buffers of `size` bytes. -/
def Session.new (size : Nat) (isServer : Bool) (socket : Nat) : Session where
  link := ⟨⟨.new size, .handshakeWantWrite, isServer, []⟩, .whole (some socket)⟩
  reader := .idle
  writer := .idle
  turn := none
  pending := []
  leased := []
  sent := []
  offers := []

def streaming (size : Nat) (isServer : Bool) (socket : Nat) : System Session StreamLabel where
  start := .new size isServer socket
  next := Session.next

/-! ## Where a round goes -/

/-- The place after a round, if there is one. -/
def placeAfter : Resume κ ρ → Option κ
  | .goto k | .suspend k => some k
  | .ret _ => none

theorem placeAfter_call (h : placeAfter (r.call inside after) = some k') :
    (∃ k, placeAfter r = some k ∧ inside k = k') ∨ ∃ v, placeAfter (after v) = some k' := by
  cases r with
  | goto k | suspend k => exact .inl ⟨k, rfl, Option.some.inj h⟩
  | ret v => exact .inr ⟨v, h⟩

/-- The half to which a place belongs. -/
def Place.half : Place → Option Half
  | .head loop | .reading loop _ | .writing loop _ | .failing _ loop _ => some loop.half
  | .flushing _ => some .write
  | .close half _ => some half
  | .closing _ => none
  | .handshake .. => some .read

/-- A place that a call of `half` may be at. -/
def Place.Of (half : Half) (k : Place) : Prop := ∀ h, k.half = some h → h = half

/-- After a round, a call is still in the loop or has returned, and has no lease. -/
def Loop.Stays (loop : Loop) (r : Resume Place Outcome) : Prop :=
  (∀ k', placeAfter r = some k' → k'.half = some loop.half) ∧ leaseAfter Place.holds r = none

namespace Loop

variable {loop : Loop}

theorem Stays.goto {k : Place} (h : k.half = some loop.half) (hholds : k.holds = none) :
    loop.Stays (.goto k) :=
  ⟨fun _ hk => Option.some.inj hk ▸ h, hholds⟩

theorem Stays.ret (v : Outcome) : loop.Stays (.ret v) := ⟨fun _ hk => (by cases hk), rfl⟩

theorem stays_proceed (result : CallEnd) : loop.Stays (loop.proceed result) := by
  cases result with
  | ok | error => exact .goto rfl rfl
  | panicked => exact .ret _

theorem stays_proceedRead (result : CallEnd) : loop.Stays (loop.proceedRead result) := by
  unfold proceedRead
  split
  · split
    · exact .ret _
    · exact .goto rfl rfl
  · exact stays_proceed result

theorem stays_respond (response : Response) : loop.Stays (loop.respond response) := by
  cases response with
  | fail | wantRead | wantWrite => exact .goto rfl rfl
  | success | eof =>
    cases loop with
    | tryRead | shutdown => exact .ret _
    | read | write => exact .goto rfl rfl

theorem stays_headRound (t : LinkAnswer) (s : Link) : loop.Stays (loop.headRound t s).2 := by
  unfold headRound
  split
  · exact .ret _
  · exact .goto rfl rfl
  · exact .goto rfl rfl
  · exact stays_respond _

end Loop

namespace Place

variable {half : Half} {k' : Place}

theorem Of.of_stays {loop : Loop} (h : loop.Stays r) (hhalf : loop.half = half)
    (hk : placeAfter r = some k') : k'.Of half :=
  fun _ heq => Option.some.inj (heq.symm.trans (h.1 k' hk)) ▸ hhalf

/-- A round leaves a call in its half. -/
theorem Of.round {k : Place} (h : k.Of half) (hk : placeAfter (k.round t s).2 = some k') :
    k'.Of half := by
  cases k with
  | head loop => exact .of_stays (loop.stays_headRound t s) (h _ rfl) hk
  | reading loop k =>
    obtain ⟨k, -, rfl⟩ | ⟨v, hv⟩ := placeAfter_call hk
    · exact h
    · exact .of_stays (loop.stays_proceedRead v) (h _ rfl) hv
  | writing loop k =>
    obtain ⟨k, -, rfl⟩ | ⟨v, hv⟩ := placeAfter_call hk
    · exact h
    · exact .of_stays (loop.stays_proceed v) (h _ rfl) hv
  | failing side loop e =>
    cases side with
    | read | write =>
      rw [Place.round, failingRound] at hk
      split at hk <;> cases hk <;> exact h
  | flushing k =>
    obtain ⟨k, -, rfl⟩ | ⟨v, hv⟩ := placeAfter_call hk
    · exact h
    · cases v with
      | ok | panicked => cases hv
      | error e =>
        cases hv
        exact h
  | close side cause =>
    rw [Place.round, closeRound] at hk
    split at hk
    · dsimp only at hk
      split at hk
      · cases hk
        exact nofun
      · cases hk
    · cases hk
      exact h
    · cases hk
  | closing cause =>
    rw [Place.round, closingRound] at hk
    split at hk
    · cases hk
      exact h
    · cases hk
    · cases hk
  | handshake side k =>
    obtain ⟨k, -, rfl⟩ | ⟨v, hv⟩ := placeAfter_call hk
    · exact h
    · cases hv

end Place

theorem Call.place_of (call : Call) : call.place.Of call.half := by
  cases call <;> exact fun _ hhalf => (Option.some.inj hhalf).symm

/-! ## What a round does to the BIO pair -/

/-- No byte goes through the socket. -/
def TlsAnswer.still (t : TlsAnswer) : ApplicationBioDirection → Nat → Prop
  | .read, len => t.amount len = 0
  | .write, len => t.bytes len = []

/-- The most that can be leased. -/
def ApplicationBio.limit (bio : ApplicationBio) : ApplicationBioDirection → Nat
  | .read => bio.outgoing.len
  | .write => bio.incoming.room

/-- What a round does to the BIO pair, with the answer of OpenSSL if it is
asked, and with the lease before and after the round. -/
inductive Effect (t : TlsAnswer) :
    Option Answer → ApplicationBio → Lease → ApplicationBio → Lease → Prop where
  | keep : Effect t none bio none bio none
  | ask (a : Answer) : Effect t (some a) bio none
      { bio with incoming := bio.incoming.take a.takes, outgoing := bio.outgoing.put a.puts } none
  | enter : bio.inCallback d = false → len ≤ bio.limit d →
      Effect t none bio none (bio.setCallback true d) (some (d, len))
  | hold : t.still d len → Effect t none bio (some (d, len)) bio (some (d, len))
  | leave : t.still d len → Effect t none bio (some (d, len)) (bio.leaveCallback d) none
  | commit : Effect t none bio (some (.write, len)) (bio.commit (t.bytes len)) none
  | consume : Effect t none bio (some (.read, len)) (bio.consume (t.amount len)) none

theorem Bio.offer_le {pick limit len : Nat} (h : Bio.offer pick limit = some len) :
    len ≤ limit := by
  obtain ⟨-, h⟩ := Option.ite_none_left_eq_some.mp h
  cases h
  exact Nat.min_le_left _ _

namespace ApplicationBio

variable {bio bio' : ApplicationBio} {d : ApplicationBioDirection} {offered : Option Nat}

@[simp] theorem outgoing_setCallback (value : Bool) :
    (bio.setCallback value d).outgoing = bio.outgoing := by
  cases d <;> rfl

@[simp] theorem outgoing_leaveCallback : (bio.leaveCallback d).outgoing = bio.outgoing :=
  outgoing_setCallback false

/-- What a lease in the other direction sees of a guard. -/
theorem inCallback_setCallback :
    (bio.setCallback value d).inCallback d' = if d' = d then value else bio.inCallback d' := by
  cases d <;> cases d' <;> rfl

theorem setCallback_idem (h : bio.inCallback d = false) :
    (bio.setCallback true d).leaveCallback d = bio := by
  obtain ⟨incoming, outgoing, inWrite, inRead⟩ := bio
  cases d with
  | read | write =>
    cases h
    rfl

/-- Where OpenSSL has nothing to offer, the guard is dropped again. -/
theorem lease_eq (h : bio.lease d offered = some (bio', o)) :
    bio.inCallback d = false ∧ bio' = (if o.isSome then bio.setCallback true d else bio) ∧
      offered = o := by
  obtain ⟨entered, hentered, h⟩ := Option.map_eq_some_iff.mp h
  obtain ⟨hfree, hentered⟩ := Option.ite_none_left_eq_some.mp hentered
  have hfree := Bool.not_eq_true _ ▸ hfree
  cases hentered
  split at h
  · cases h
    exact ⟨hfree, setCallback_idem hfree, rfl⟩
  · cases h
    exact ⟨hfree, rfl, rfl⟩

end ApplicationBio

/-- What a round of `try_read` does to the BIO pair. -/
theorem tryReadRound_effect (t : TlsAnswer) (s : TlsStream) (k : TryRead) :
    Effect t none s.ssl.bio k.holds (tryReadRound t s k).1.ssl.bio
      (leaseAfter TryRead.holds (tryReadRound t s k).2) := by
  cases k with
  | enter =>
    rw [tryReadRound]
    split
    · exact .keep
    · split
      · exact .keep
      · next hlease =>
        obtain ⟨-, rfl, -⟩ := ApplicationBio.lease_eq hlease
        exact .keep
      · next hlease =>
        obtain ⟨hfree, rfl, hoffer⟩ := ApplicationBio.lease_eq hlease
        exact .enter hfree (Bio.offer_le hoffer)
  | reading len =>
    rw [tryReadRound]
    split
    · next hread => exact .hold (by simp only [TlsAnswer.still, TlsAnswer.bytes, hread])
    · next hread => exact .leave (by simp only [TlsAnswer.still, TlsAnswer.bytes, hread])
    · next bytes hread =>
      have hbytes : t.bytes len = bytes.take len := by simp only [TlsAnswer.bytes, hread]
      dsimp only
      split
      · next hnone =>
        exact .leave (hbytes.trans (List.eq_nil_of_length_eq_zero hnone))
      · rw [← hbytes]
        exact .commit

/-- What a round of `try_write` does to the BIO pair. -/
theorem tryWriteRound_effect (t : TlsAnswer) (s : TlsStream) (k : TryWrite) :
    Effect t none s.ssl.bio k.holds (tryWriteRound t s k).1.ssl.bio
      (leaseAfter TryWrite.holds (tryWriteRound t s k).2) := by
  cases k with
  | enter =>
    rw [tryWriteRound]
    split
    · exact .keep
    · exact .keep
  | lease =>
    rw [tryWriteRound]
    split
    · exact .keep
    · next hlease =>
      obtain ⟨-, rfl, -⟩ := ApplicationBio.lease_eq hlease
      exact .keep
    · next hlease =>
      obtain ⟨hfree, rfl, hoffer⟩ := ApplicationBio.lease_eq hlease
      exact .enter hfree (Bio.offer_le hoffer)
  | writing len =>
    rw [tryWriteRound]
    split
    · next hwrote => exact .hold (by simp only [TlsAnswer.still, TlsAnswer.amount, hwrote])
    · next hwrote => exact .leave (by simp only [TlsAnswer.still, TlsAnswer.amount, hwrote])
    · next amount hwrote =>
      have hamount : t.amount len = min amount len := by simp only [TlsAnswer.amount, hwrote]
      dsimp only
      split
      · next hnone => exact .leave (hamount.trans hnone)
      · rw [← hamount]
        exact .consume

/-- A lock does not touch the BIO pair. -/
theorem lockedRound_effect {round : TlsAnswer → TlsStream → κ → TlsStream × Resume κ CallEnd}
    (henter : holds enter = none)
    (hround : ∀ t s k, Effect t none s.ssl.bio (holds k) (round t s k).1.ssl.bio
      (leaseAfter holds (round t s k).2)) (t : LinkAnswer) (s : Link) (k : Locked κ) :
    Effect t.toTlsAnswer none s.ssl.bio (k.holds holds)
      (lockedRound half enter round t s k).1.ssl.bio
      (leaseAfter (Locked.holds holds) (lockedRound half enter round t s k).2) := by
  cases k with
  | locking =>
    rw [lockedRound]
    split
    · simp only [leaseAfter, Locked.holds, henter]
      exact .keep
    · exact .keep
    · exact .keep
  | inside k =>
    have h := hround t.toTlsAnswer ⟨s.ssl, s.sockets.socket half⟩ k
    rw [lockedRound]
    generalize round t.toTlsAnswer ⟨s.ssl, s.sockets.socket half⟩ k = r at h ⊢
    obtain ⟨stream, place | place | v⟩ := r
    · exact h
    · exact h
    · exact h

theorem Bio.offer_eq_none (h : Bio.offer pick limit = none) : limit = 0 := by
  unfold Bio.offer at h
  split at h
  · assumption
  · cases h

/-- `try_write` returns when there is nothing left to lease. -/
theorem tryWriteRound_ok {t : TlsAnswer} {s : TlsStream} (h : (tryWriteRound t s k).2 = .ret .ok) :
    (tryWriteRound t s k).1.ssl.bio.outgoing.len = 0 := by
  cases k with
  | enter =>
    rw [tryWriteRound] at h
    split at h <;> cases h
  | lease =>
    rw [tryWriteRound] at h ⊢
    split at h
    · cases h
    · next hlease =>
      obtain ⟨-, rfl, hnone⟩ := ApplicationBio.lease_eq hlease
      exact Bio.offer_eq_none hnone
    · cases h
  | writing len =>
    rw [tryWriteRound] at h
    split at h
    · cases h
    · cases h
    · dsimp only at h
      split at h <;> cases h

/-- **`try_write` empties the buffer**, if it succeeds. -/
theorem tryWrite_ok {s : Link} (h : (tryWrite t s k).2 = .ret .ok) :
    (tryWrite t s k).1.ssl.bio.outgoing.len = 0 := by
  cases k with
  | locking =>
    rw [tryWrite, lockedRound] at h
    split at h <;> cases h
  | inside k =>
    have hround := tryWriteRound_ok (t := t.toTlsAnswer)
      (s := ⟨s.ssl, s.sockets.socket .write⟩) (k := k)
    rw [tryWrite, lockedRound] at h ⊢
    generalize tryWriteRound t.toTlsAnswer ⟨s.ssl, s.sockets.socket .write⟩ k = r at h hround ⊢
    obtain ⟨stream, place | place | v⟩ := r
    · cases h
    · cases h
    · cases h
      exact hround rfl

/-- A function that calls another one has the lease of its callee, and none
when the callee has returned. -/
theorem leaseAfter_call {inside : κ → κ'} {after : ρ → Resume κ' ρ'}
    (hinside : ∀ k, holds' (inside k) = holds k)
    (hafter : ∀ v, leaseAfter holds' (after v) = none) (r : Resume κ ρ) :
    leaseAfter holds' (r.call inside after) = leaseAfter holds r := by
  cases r with
  | goto k | suspend k => exact hinside k
  | ret v => exact hafter v

theorem leaseAfter_handshakeProceed (result : CallEnd) :
    leaseAfter Handshake.holds (Handshake.proceed result) = none := by
  cases result with
  | ok | error | panicked => rfl

theorem handshakeRound_effect (eof : CallEnd) (t : TlsAnswer) (s : TlsStream) (k : Handshake) :
    Effect t (if k = .call then some t.ssl else none) s.ssl.bio k.holds
      (handshakeRound eof t s k).1.ssl.bio
      (leaseAfter Handshake.holds (handshakeRound eof t s k).2) := by
  cases k with
  | call =>
    have hask : Effect t (some t.ssl) s.ssl.bio none _ none := .ask t.ssl
    rw [handshakeRound, if_pos rfl]
    split
    · exact hask
    · rw [leaseAfter_handshakeProceed]
      exact hask
    · exact hask
    · exact hask
    · exact hask
  | reading k =>
    rw [handshakeRound, leaseAfter_call (fun _ => rfl) leaseAfter_handshakeProceed]
    exact tryReadRound_effect t s k
  | writing k =>
    rw [handshakeRound, leaseAfter_call (fun _ => rfl) leaseAfter_handshakeProceed]
    exact tryWriteRound_effect t s k

namespace Loop

theorem transfer_effect (t : TlsAnswer) (len : Nat) (ssl : TlsServer) :
    Effect t (if 0 < len ∧ len ≤ cIntMax then some t.ssl else none) ssl.bio none
      (ssl.transfer len t.ssl).1.bio none := by
  unfold TlsServer.transfer
  split
  · next hasked =>
    rw [if_neg (by omega), if_neg (by omega)]
    exact .ask t.ssl
  · split
    · exact .keep
    · rw [if_pos (by omega)]
      exact .keep

theorem headRound_effect (t : LinkAnswer) (s : Link) (loop : Loop) :
    Effect t.toTlsAnswer ((Place.head loop).asks t) s.ssl.bio none (loop.headRound t s).1.ssl.bio
      (leaseAfter Place.holds (loop.headRound t s).2) := by
  rw [(loop.stays_headRound t s).2]
  unfold headRound
  split
  · exact .keep
  · exact .keep
  · exact .keep
  · cases loop with
    | tryRead len | read len => exact transfer_effect t.toTlsAnswer len s.ssl
    | write buffer rest => exact transfer_effect t.toTlsAnswer buffer.length s.ssl
    | shutdown => exact .ask t.ssl

end Loop

theorem failingRound_effect (t : LinkAnswer) (s : Link) (loop : Loop) (e : TlsServerError)
    (half : Half) :
    Effect t.toTlsAnswer none s.ssl.bio none (failingRound t s loop e half).1.ssl.bio
      (leaseAfter Place.holds (failingRound t s loop e half).2) := by
  cases half with
  | read | write =>
    rw [failingRound]
    split
    · exact .keep
    · exact .keep
    · exact .keep

theorem closeRound_effect (t : LinkAnswer) (s : Link) (half : Half) (cause : Outcome) :
    Effect t.toTlsAnswer none s.ssl.bio none (closeRound t s half cause).1.ssl.bio
      (leaseAfter Place.holds (closeRound t s half cause).2) := by
  unfold closeRound
  split
  · dsimp only
    split
    · exact .keep
    · exact .keep
  · exact .keep
  · exact .keep

/-- **What a round does** to the BIO pair, for every place in every call. -/
theorem Place.round_effect (t : LinkAnswer) (s : Link) (k : Place) :
    Effect t.toTlsAnswer (k.asks t) s.ssl.bio k.holds (k.round t s).1.ssl.bio
      (leaseAfter Place.holds (k.round t s).2) := by
  cases k with
  | head loop => exact Loop.headRound_effect t s loop
  | reading loop k =>
    rw [round, leaseAfter_call (fun _ => rfl) fun v => (loop.stays_proceedRead v).2]
    exact lockedRound_effect rfl tryReadRound_effect t s k
  | writing loop k =>
    rw [round, leaseAfter_call (fun _ => rfl) fun v => (loop.stays_proceed v).2]
    exact lockedRound_effect rfl tryWriteRound_effect t s k
  | failing half loop e => exact failingRound_effect t s loop e half
  | flushing k =>
    rw [round, leaseAfter_call (fun _ => rfl) fun result => by cases result <;> rfl]
    exact lockedRound_effect rfl tryWriteRound_effect t s k
  | close half cause => exact closeRound_effect t s half cause
  | closing cause =>
    rw [round, closingRound]
    split
    · exact .keep
    · exact .keep
    · exact .keep
  | handshake side k =>
    rw [round, leaseAfter_call (fun _ => rfl) fun _ => rfl, Side.round_eq]
    have h := handshakeRound_effect side.eof t.toTlsAnswer ⟨s.ssl, s.sockets.socket .read⟩ k
    cases k with
    | call | reading | writing => exact h

/-! ## What a round does to the sockets -/

namespace Sockets

variable {half : Half} {sockets sockets' : Sockets}

@[simp] theorem isWhole_setLocked (value : Bool) :
    (sockets.setLocked value half).isWhole = sockets.isWhole := by
  cases half <;> cases sockets <;> rfl

@[simp] theorem isWhole_take : (sockets.take half).isWhole = sockets.isWhole := by
  cases half <;> cases sockets <;> rfl

theorem isWhole_lock (h : sockets.lock half canceled = .granted sockets') :
    sockets'.isWhole = sockets.isWhole := by
  unfold lock at h
  split at h
  · cases h
    rfl
  · split at h
    · cases h
    · split at h
      · cases h
      · cases h
        exact isWhole_setLocked true

end Sockets

theorem lockedRound_isWhole {round : TlsAnswer → TlsStream → κ → TlsStream × Resume κ CallEnd}
    (t : LinkAnswer) (s : Link) (k : Locked κ) :
    (lockedRound half enter round t s k).1.sockets.isWhole = s.sockets.isWhole := by
  unfold lockedRound
  split
  · split
    · next hlock => exact Sockets.isWhole_lock hlock
    · rfl
    · rfl
  · dsimp only
    split
    · rfl
    · rfl
    · exact Sockets.isWhole_setLocked false

theorem Place.round_isWhole (t : LinkAnswer) (s : Link) (k : Place) :
    (k.round t s).1.sockets.isWhole = s.sockets.isWhole := by
  cases k with
  | head loop =>
    rw [round, Loop.headRound.eq_def]
    split <;> rfl
  | reading loop k | writing loop k | flushing k => exact lockedRound_isWhole t s k
  | failing half loop e =>
    cases half with
    | read =>
      rw [round, failingRound]
      split
      · next hlock => exact Sockets.isWhole_lock hlock
      · rfl
      · rfl
    | write =>
      rw [round, failingRound]
      split
      · next hlock =>
        simp only [Link.setLocked, Sockets.isWhole_setLocked]
        exact Sockets.isWhole_lock hlock
      · rfl
      · exact Sockets.isWhole_setLocked false
  | close half cause =>
    rw [round, closeRound]
    split
    · next hlock =>
      simp only [Sockets.isWhole_setLocked, Sockets.isWhole_take]
      exact Sockets.isWhole_lock hlock
    · rfl
    · rfl
  | closing | handshake => rfl

theorem Place.drop_isWhole (s : Link) (k : Place) :
    (k.drop s).sockets.isWhole = s.sockets.isWhole := by
  unfold Place.drop
  split
  · rfl
  · exact Sockets.isWhole_setLocked false

/-! ## The steps -/

namespace Session

section

variable {s s' : Session} {slot : Slot} {half other : Half} {call : Call} {k : Place}
  {t : LinkAnswer} {r : Link × Resume Place Outcome} {d : Nat}

theorem slot_setSlot :
    (s.setSlot slot half).slot other = if other = half then slot else s.slot other := by
  cases half <;> cases other <;> rfl

@[simp] theorem link_setSlot : (s.setSlot slot half).link = s.link := by
  cases half <;> rfl

@[simp] theorem sent_setSlot : (s.setSlot slot half).sent = s.sent := by
  cases half <;> rfl

@[simp] theorem leased_setSlot : (s.setSlot slot half).leased = s.leased := by
  cases half <;> rfl

@[simp] theorem offers_setSlot : (s.setSlot slot half).offers = s.offers := by
  cases half <;> rfl

/-- The slot of a call after a round of it. -/
def slotAfter (call : Call) : Resume Place Outcome → Slot
  | .goto k | .suspend k => .running call k
  | .ret v => .ended call v

theorem slotAfter_running {r : Resume Place Outcome} (h : slotAfter call r = .running call' k) :
    call' = call ∧ placeAfter r = some k := by
  cases r with
  | goto | suspend =>
    cases h
    exact ⟨rfl, rfl⟩
  | ret v => cases h

theorem slotAfter_ended {r : Resume Place Outcome} (h : slotAfter call r = .ended call' v) :
    call' = call ∧ r = .ret v := by
  cases r with
  | goto | suspend => cases h
  | ret w =>
    cases h
    exact ⟨rfl, rfl⟩

theorem slot_advance (r : Resume Place Outcome) : (s.advance half call r).slot other =
      if other = half then slotAfter call r else s.slot other := by
  cases r <;> exact slot_setSlot

@[simp] theorem link_advance (r : Resume Place Outcome) :
    (s.advance half call r).link = s.link := by
  cases r <;> exact link_setSlot

@[simp] theorem sent_advance (r : Resume Place Outcome) :
    (s.advance half call r).sent = s.sent := by
  cases r <;> exact sent_setSlot

@[simp] theorem leased_advance (r : Resume Place Outcome) :
    (s.advance half call r).leased = s.leased := by
  cases r <;> exact leased_setSlot

@[simp] theorem offers_advance (r : Resume Place Outcome) :
    (s.advance half call r).offers = s.offers := by
  cases r <;> exact offers_setSlot

theorem slot_begin : (s.begin call).slot other =
      if other = call.half then .running call call.place else s.slot other := by
  unfold begin
  split
  · exact slot_setSlot
  · exact slot_setSlot

@[simp] theorem link_begin : (s.begin call).link = s.link := by
  unfold begin
  split
  · exact link_setSlot
  · exact link_setSlot

@[simp] theorem leased_begin : (s.begin call).leased = s.leased := by
  unfold begin
  split
  · exact leased_setSlot
  · exact leased_setSlot

@[simp] theorem sent_begin : (s.begin call).sent = s.sent := by
  unfold begin
  split
  · exact sent_setSlot
  · exact sent_setSlot

theorem offers_begin : (s.begin call).offers = if call.buffers.isSome then [] else s.offers := by
  unfold begin
  split
  · rfl
  · exact offers_setSlot

theorem slot_dropCall :
    (s.dropCall half k d).slot other = if other = half then .idle else s.slot other := by
  cases half <;> cases other <;> rfl

@[simp] theorem link_dropCall : (s.dropCall half k d).link = k.drop s.link := rfl

@[simp] theorem offers_dropCall : (s.dropCall half k d).offers = s.offers := by
  cases half <;> rfl

@[simp] theorem leased_dropCall : (s.dropCall half k d).leased = s.leased := by
  cases half <;> rfl

end

theorem isWhole_split (h : split fd sockets = some sockets') : sockets'.isWhole = false := by
  unfold split at h
  split at h
  · cases h
    rfl
  · cases h
    rfl
  · cases h

/-- What one step of the system does. -/
inductive Steps (s : Session) : StreamLabel → Session → Prop where
  | start : s.canStart call = true → Steps s (.start call) (s.begin call)
  | round : s.slot half = .running call k → Steps s (.round half t)
        ((s.record t k (k.round t s.link)).advance half call (k.round t s.link).2)
  | drop : s.slot half = .running call k → Steps s (.drop half d) (s.dropCall half k d)
  | split : s.reader.isRunning = false → s.writer.isRunning = false →
      split fd s.link.sockets = some sockets →
      Steps s (.split fd) { s with link := { s.link with sockets := sockets } }

/-- What a step can do, and what it asks of the state. -/
theorem steps_of_next (h : s.next l = some s') : Steps s l s' := by
  cases l with
  | start call =>
    obtain ⟨hstart, rfl⟩ := Option.ite_some_none_eq_some.mp h
    exact .start hstart
  | round half t =>
    obtain ⟨-, h⟩ := Option.ite_none_right_eq_some.mp h
    split at h
    · next hslot =>
      cases h
      exact .round hslot
    · cases h
  | drop half d =>
    obtain ⟨-, h⟩ := Option.ite_none_right_eq_some.mp h
    split at h
    · next hslot =>
      cases h
      exact .drop hslot
    · cases h
  | split fd =>
    obtain ⟨hidle, h⟩ := Option.ite_none_right_eq_some.mp h
    obtain ⟨sockets, hsockets, rfl⟩ := Option.map_eq_some_iff.mp h
    simp only [Bool.not_eq_true'] at hidle
    exact .split hidle.2.1 hidle.2.2 hsockets

end Session

/-! ## Single rounds -/

/-- A round that does not ask OpenSSL, and in which the socket has not moved. -/
def still : LinkAnswer := ⟨idle, false, none⟩

/-- A round in which OpenSSL is asked. -/
def asked (result error : Int) (puts : List UInt8) : LinkAnswer :=
  { still with ssl := ⟨result, error, [], 0, puts⟩ }

/-- A round in which a socket write of at least `n` bytes has written `n`. -/
def wrote (n : Nat) : LinkAnswer := { still with wrote := some (.ok n) }

end Kimojio.Tls
