import Kimojio.Ring.Completion

/-!
# Kimojio.Tls.Handle

The TLS handle of `kimojio-tls`: an OpenSSL object that reads and writes two
buffers in memory instead of a socket (a *BIO pair*), and the leases by which
the stream fills the one and empties the other.

OpenSSL itself is the environment. An `Answer` is what one call of it
returns, what `SSL_get_error` says next, and what the call did to the two
buffers: any result with any error, at every call.
-/

namespace Kimojio.Tls

open Kimojio.Ring (Errno)

def inval : Errno := ⟨22⟩
def pipe : Errno := ⟨32⟩
def proto : Errno := ⟨71⟩

/-! ## Responses -/

inductive TlsServerError where
  | errno (code : Errno)
  /-- The codes on OpenSSL's error stack. -/
  | tlsError (stack : List Nat)
  deriving DecidableEq, Repr

inductive Response where
  | success (amount : Nat)
  | fail (error : TlsServerError)
  | eof
  | wantRead
  | wantWrite
  deriving DecidableEq, Repr

@[match_pattern] def sslErrorNone : Int := 0
@[match_pattern] def sslErrorSsl : Int := 1
@[match_pattern] def sslErrorWantRead : Int := 2
@[match_pattern] def sslErrorWantWrite : Int := 3
@[match_pattern] def sslErrorWantX509Lookup : Int := 4
@[match_pattern] def sslErrorSyscall : Int := 5
@[match_pattern] def sslErrorZeroReturn : Int := 6
@[match_pattern] def sslErrorWantConnect : Int := 7
@[match_pattern] def sslErrorWantAccept : Int := 8
@[match_pattern] def sslErrorWantAsync : Int := 9
@[match_pattern] def sslErrorWantAsyncJob : Int := 10
@[match_pattern] def sslErrorWantClientHelloCb : Int := 11
@[match_pattern] def sslErrorWantRetryVerify : Int := 12

def sslErrorResponse (error : Int) (stack : List Nat) : Response :=
  match error with
  | sslErrorNone => .fail (.errno inval)
  | sslErrorSsl => .fail (.tlsError stack)
  | sslErrorWantRead => .wantRead
  | sslErrorWantWrite => .wantWrite
  | sslErrorWantX509Lookup => .fail (.errno proto)
  | sslErrorSyscall => .fail (.tlsError stack)
  | sslErrorZeroReturn => .eof
  | sslErrorWantConnect | sslErrorWantAccept | sslErrorWantAsync | sslErrorWantAsyncJob
  | sslErrorWantClientHelloCb | sslErrorWantRetryVerify => .fail (.errno proto)
  | _ => .fail (.errno inval)

/-- Only a TLS session that the peer has closed is an end of file. -/
theorem sslErrorResponse_eq_eof :
    sslErrorResponse error stack = .eof ↔ error = sslErrorZeroReturn := by
  constructor
  · intro h
    unfold sslErrorResponse at h
    split at h
    all_goals first | rfl | cases h
  · intro h
    rw [h]
    rfl

theorem sslErrorResponse_ne_success (error : Int) (stack : List Nat) (amount : Nat) :
    sslErrorResponse error stack ≠ .success amount := by
  unfold sslErrorResponse
  split
  all_goals nofun

/-! ## The BIO pair -/

/-- One direction of the BIO pair: a queue of at most `size` bytes. It is
given by all bytes that were ever put in, and the number of those that were
taken out again. -/
structure Bio where
  size : Nat
  written : List UInt8
  taken : Nat
  taken_le : taken ≤ written.length
  fits : written.length - taken ≤ size
  deriving DecidableEq

namespace Bio

def empty (size : Nat) : Bio := ⟨size, [], 0, Nat.le_refl 0, Nat.zero_le size⟩

/-- The number of bytes in the queue. -/
def len (bio : Bio) : Nat := bio.written.length - bio.taken

def room (bio : Bio) : Nat := bio.size - bio.len

/-- As many of the bytes as fit. -/
def put (bytes : List UInt8) (bio : Bio) : Bio where
  size := bio.size
  written := bio.written ++ bytes.take bio.room
  taken := bio.taken
  taken_le := by
    have := bio.taken_le
    rw [List.length_append]
    omega
  fits := by
    have hle := bio.taken_le
    have hfits := bio.fits
    rw [List.length_append, List.length_take]
    unfold room len
    omega

/-- The first `n` bytes, or all of them. -/
def take (n : Nat) (bio : Bio) : Bio where
  size := bio.size
  written := bio.written
  taken := bio.taken + min n bio.len
  taken_le := by
    have := bio.taken_le
    unfold len
    omega
  fits := by
    have := bio.fits
    omega

/-- A contiguous part of `limit` bytes. Where the queue wraps around is not
in the model: any positive length may be offered. -/
def offer (pick limit : Nat) : Option Nat :=
  if limit = 0 then none else some (min limit (pick + 1))

/-- `BIO_nwrite0`: the part of the free room that can be filled at once. -/
def nwrite0 (pick : Nat) (bio : Bio) : Option Nat := offer pick bio.room

/-- `BIO_nread0`: the bytes that can be read at once. -/
def nread0 (pick : Nat) (bio : Bio) : Option Nat := offer pick bio.len

end Bio

inductive ApplicationBioDirection where
  | read
  | write
  deriving DecidableEq, Repr

/-- The end of the BIO pair that the stream has, as the bytes on their way to
OpenSSL and from it. -/
structure ApplicationBio where
  incoming : Bio
  outgoing : Bio
  inWriteCallback : Bool
  inReadCallback : Bool
  deriving DecidableEq

namespace ApplicationBio

def new (size : Nat) : ApplicationBio := ⟨.empty size, .empty size, false, false⟩

def setCallback (bio : ApplicationBio) (value : Bool) : ApplicationBioDirection → ApplicationBio
  | .read => { bio with inReadCallback := value }
  | .write => { bio with inWriteCallback := value }

def inCallback (bio : ApplicationBio) : ApplicationBioDirection → Bool
  | .read => bio.inReadCallback
  | .write => bio.inWriteCallback

/-- The guard of a lease. A second one in the same direction is a panic. -/
def enterCallback (bio : ApplicationBio) (direction : ApplicationBioDirection) :
    Option ApplicationBio :=
  if bio.inCallback direction then none else some (bio.setCallback true direction)

/-- The guard is dropped. -/
def leaveCallback (bio : ApplicationBio) (direction : ApplicationBioDirection) : ApplicationBio :=
  bio.setCallback false direction

/-- A lease in one direction, where `offered` is what OpenSSL has to offer. -/
def lease (direction : ApplicationBioDirection) (offered : Option Nat) (bio : ApplicationBio) :
    Option (ApplicationBio × Option Nat) :=
  (bio.enterCallback direction).map fun bio =>
    match offered with
    | none => (bio.leaveCallback direction, none)
    | some len => (bio, some len)

/-- The room that the stream may fill. -/
def writeLease (pick : Nat) (bio : ApplicationBio) : Option (ApplicationBio × Option Nat) :=
  bio.lease .write (bio.incoming.nwrite0 pick)

/-- The bytes that the stream may send. -/
def readLease (pick : Nat) (bio : ApplicationBio) : Option (ApplicationBio × Option Nat) :=
  bio.lease .read (bio.outgoing.nread0 pick)

/-- The leased room was filled. OpenSSL takes over the `bytes` at the write position
that the BIO has now: they are those of the lease, unless the BIO was emptied
meanwhile and has begun again at the start of its ring. -/
def commit (bytes : List UInt8) (bio : ApplicationBio) : ApplicationBio :=
  { bio with incoming := bio.incoming.put bytes }.leaveCallback .write

/-- The first `amount` of the leased bytes were sent. -/
def consume (amount : Nat) (bio : ApplicationBio) : ApplicationBio :=
  { bio with outgoing := bio.outgoing.take amount }.leaveCallback .read

end ApplicationBio

/-! ## The handle -/

inductive TlsHandleState where
  | handshakeWantWrite
  | handshake
  | started
  deriving DecidableEq, Repr

/-- What OpenSSL does in one call. -/
structure Answer where
  result : Int
  /-- What `SSL_get_error` returns. -/
  error : Int
  stack : List Nat
  /-- The number of incoming bytes it takes. -/
  takes : Nat
  /-- The bytes it has to send, of which it puts as many as there is room for. -/
  puts : List UInt8
  deriving DecidableEq, Repr

/-- The handshake reports that it is complete. -/
def Answer.completes (a : Answer) : Prop := a.result = 1

instance (a : Answer) : Decidable a.completes := inferInstanceAs (Decidable (a.result = 1))

/-- The part of `do_handshake` that does not touch the buffers. -/
def TlsHandleState.respond (state : TlsHandleState) (a : Answer) : TlsHandleState × Response :=
  if a.result = 1 then (.started, .success 0)
  else
    match state with
    | .handshakeWantWrite => (.handshake, .wantWrite)
    | .handshake =>
      (.handshakeWantWrite,
        match a.error with
        | sslErrorWantWrite => .wantWrite
        | sslErrorWantRead => .wantRead
        | error => sslErrorResponse error a.stack)
    | .started => (.started, .fail (.errno inval))

structure TlsServer where
  bio : ApplicationBio
  state : TlsHandleState
  isServer : Bool
  /-- What `SSL_do_handshake` has answered so far. -/
  handshakes : List Answer
  deriving DecidableEq

/-- What `BIO_new_bio_pair` does: its result, the error stack after it, and
which of the two pointers it has set. -/
structure BioPair where
  result : Int
  stack : List Nat
  sslBio : Bool
  serverIo : Bool
  deriving DecidableEq, Repr

namespace TlsServer

def fromSsl (pair : BioPair) (bufsize : Nat) (isServer : Bool) : Except TlsServerError TlsServer :=
  if pair.result ≠ 1 then .error (.tlsError pair.stack)
  else if !pair.sslBio then .error (.errno inval)
  else if !pair.serverIo then .error (.errno inval)
  else .ok ⟨.new bufsize, .handshakeWantWrite, isServer, []⟩

/-- What a call of OpenSSL does to the two buffers. -/
def exchange (a : Answer) (ssl : TlsServer) : TlsServer :=
  { ssl with bio := { ssl.bio with
      incoming := ssl.bio.incoming.take a.takes, outgoing := ssl.bio.outgoing.put a.puts } }

def doHandshake (a : Answer) (ssl : TlsServer) : TlsServer × Response :=
  let r := ssl.state.respond a
  ({ ssl.exchange a with state := r.1, handshakes := ssl.handshakes ++ [a] }, r.2)

end TlsServer

/-! ## A sequence of answers -/

namespace TlsHandleState

variable {state : TlsHandleState} {a : Answer} {as : List Answer}

/-- The state after a sequence of answers. -/
def after (state : TlsHandleState) (as : List Answer) : TlsHandleState :=
  as.foldl (fun state a => (state.respond a).1) state

theorem respond_success (h : (state.respond a).2 = .success amount) : a.completes := by
  unfold respond at h
  split at h
  · next hone => exact hone
  · split at h
    · cases h
    · split at h
      · cases h
      · cases h
      · exact absurd h (sslErrorResponse_ne_success _ _ _)
    · cases h

theorem respond_completes (h : a.completes) : state.respond a = (.started, .success 0) :=
  if_pos h

theorem respond_eof : (state.respond a).2 = .eof ↔
    state = .handshake ∧ ¬ a.completes ∧ a.error = sslErrorZeroReturn := by
  unfold respond Answer.completes
  split
  · next hone => exact ⟨nofun, fun h => absurd hone h.2.1⟩
  · next hne =>
    split
    · exact ⟨nofun, nofun⟩
    · split
      · next herror => exact ⟨nofun, fun h => absurd h.2.2 (by rw [herror]; decide)⟩
      · next herror => exact ⟨nofun, fun h => absurd h.2.2 (by rw [herror]; decide)⟩
      · rw [sslErrorResponse_eq_eof]
        exact ⟨fun h => ⟨rfl, hne, h⟩, fun h => h.2.2⟩
    · exact ⟨nofun, nofun⟩

/-- The peer has closed the TLS session, and an answer says so when it counts:
in every other call of `do_handshake` the error is not looked at. -/
def closedBy (state : TlsHandleState) : List Answer → Bool
  | [] => false
  | a :: as =>
    (state = .handshake && a.result ≠ 1 && a.error = sslErrorZeroReturn) ||
      (state.respond a).1.closedBy as

theorem closedBy_concat : state.closedBy (as ++ [a]) = true ↔
    state.closedBy as = true ∨ ((state.after as).respond a).2 = .eof := by
  induction as generalizing state with
  | nil =>
    rw [respond_eof]
    simp [closedBy, after, Answer.completes, and_assoc]
  | cons b as ih =>
    simp only [List.cons_append, closedBy, Bool.or_eq_true, ih, or_assoc]
    rfl

end TlsHandleState

end Kimojio.Tls
