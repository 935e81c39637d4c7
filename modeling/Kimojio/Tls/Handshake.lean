import Kimojio.Coroutine
import Kimojio.Transition
import Kimojio.Tls.Handle

/-!
# Kimojio.Tls.Handshake

The handshake of a `TlsStream`: OpenSSL is asked again and again, and between
two calls the stream moves bytes from the socket into the one buffer or from
the other buffer into the socket.

The socket is the environment too. A read or a write of it stays pending for
as long as the environment wants, and ends with any error or any number of
bytes; a deadline is one of the things that decide about that.

A handshake that returns without an error is complete, except for one case:
the client takes a peer that closes the TLS session for the end of the
handshake (`handshake_ok_iff`).
-/

namespace Kimojio.Tls

open Kimojio.Ring (Errno)

/-! ## The stream and its socket -/

structure TlsStream where
  ssl : TlsServer
  socket : Option Nat
  deriving DecidableEq

namespace TlsStream

def newTlsstream (ssl : TlsServer) (socket : Nat) : TlsStream := ⟨ssl, some socket⟩

def withBio (s : TlsStream) (bio : ApplicationBio) : TlsStream :=
  { s with ssl := { s.ssl with bio := bio } }

end TlsStream

/-- What the environment answers in one round. A read or a write of the
socket that is not ready has no outcome. -/
structure TlsAnswer where
  ssl : Answer
  pick : Nat
  read : Option (Except Errno (List UInt8))
  wrote : Option (Except Errno Nat)

/-- How a call ends. -/
inductive CallEnd where
  | ok
  | error (code : Errno)
  | panicked
  deriving DecidableEq, Repr

inductive TryRead where
  | enter
  /-- In `read_with_deadline`, with a lease of `len` bytes. -/
  | reading (len : Nat)
  deriving DecidableEq, Repr

def tryReadRound (t : TlsAnswer) (s : TlsStream) : TryRead → TlsStream × Resume TryRead CallEnd
  | .enter =>
    match s.socket with
    | none => (s, .ret (.error pipe))
    | some _ =>
      match s.ssl.bio.writeLease t.pick with
      | none => (s, .ret .panicked)
      | some (bio, none) => (s.withBio bio, .ret .ok)
      | some (bio, some len) => (s.withBio bio, .goto (.reading len))
  | .reading len =>
    match t.read with
    | none => (s, .suspend (.reading len))
    | some (.error e) =>
      (s.withBio (s.ssl.bio.leaveCallback .write), .ret (.error e))
    | some (.ok bytes) =>
      let bytes := bytes.take len
      if bytes.length = 0 then
        (s.withBio (s.ssl.bio.leaveCallback .write), .ret (.error pipe))
      else (s.withBio (s.ssl.bio.commit bytes), .ret .ok)

inductive TryWrite where
  | enter
  /-- At the head of the loop. -/
  | lease
  | writing (len : Nat)
  deriving DecidableEq, Repr

def tryWriteRound (t : TlsAnswer) (s : TlsStream) : TryWrite → TlsStream × Resume TryWrite CallEnd
  | .enter =>
    match s.socket with
    | none => (s, .ret (.error pipe))
    | some _ => (s, .goto .lease)
  | .lease =>
    match s.ssl.bio.readLease t.pick with
    | none => (s, .ret .panicked)
    | some (bio, none) => (s.withBio bio, .ret .ok)
    | some (bio, some len) => (s.withBio bio, .goto (.writing len))
  | .writing len =>
    match t.wrote with
    | none => (s, .suspend (.writing len))
    | some (.error e) =>
      (s.withBio (s.ssl.bio.leaveCallback .read), .ret (.error e))
    | some (.ok amount) =>
      let amount := min amount len
      if amount = 0 then
        (s.withBio (s.ssl.bio.leaveCallback .read), .ret (.error pipe))
      else (s.withBio (s.ssl.bio.consume amount), .goto .lease)

/-! ## The handshakes -/

def asIoError : TlsServerError → Errno
  | .errno code => code
  | .tlsError _ => proto

def asOpensslError (_stack : List Nat) : Errno := proto

def handleTlsError (socket : Option Nat) (e : TlsServerError) : CallEnd :=
  if socket.isSome then .error (asIoError e) else .error pipe

inductive Handshake where
  /-- At the head of the loop. -/
  | call
  | reading (k : TryRead)
  | writing (k : TryWrite)
  deriving DecidableEq, Repr

/-- `?`, and the next turn of the loop. -/
def Handshake.proceed : CallEnd → Resume Handshake CallEnd
  | .ok => .goto .call
  | .error e => .ret (.error e)
  | .panicked => .ret .panicked

/-- The two handshakes, which differ in what an end of file means. -/
def handshakeRound (eof : CallEnd) (t : TlsAnswer) (s : TlsStream) :
    Handshake → TlsStream × Resume Handshake CallEnd
  | .call =>
    let r := s.ssl.doHandshake t.ssl
    let s := { s with ssl := r.1 }
    match r.2 with
    | .success _ => (s, .ret .ok)
    | .fail e => (s, Handshake.proceed (handleTlsError s.socket e))
    | .wantRead => (s, .goto (.reading .enter))
    | .wantWrite => (s, .goto (.writing .enter))
    | .eof => (s, .ret eof)
  | .reading k =>
    let r := tryReadRound t s k
    (r.1, r.2.call .reading Handshake.proceed)
  | .writing k =>
    let r := tryWriteRound t s k
    (r.1, r.2.call .writing Handshake.proceed)

def clientSideHandshake := handshakeRound .ok

def serverSideHandshake := handshakeRound (.error proto)

/-- A future that is dropped drops its lease. -/
def Handshake.drop (s : TlsStream) : Handshake → TlsStream
  | .reading (.reading _) => s.withBio (s.ssl.bio.leaveCallback .write)
  | .writing (.writing _) => s.withBio (s.ssl.bio.leaveCallback .read)
  | _ => s

/-! ## The system -/

inductive Side where
  | client
  | server
  deriving DecidableEq, Repr

def Side.round : Side → TlsAnswer → TlsStream → Handshake → TlsStream × Resume Handshake CallEnd
  | .client => clientSideHandshake
  | .server => serverSideHandshake

inductive Status where
  | running (k : Handshake)
  | ended (result : CallEnd)
  | dropped
  deriving DecidableEq

structure Handshaking where
  stream : TlsStream
  status : Status
  deriving DecidableEq

inductive Label where
  | poll (rounds : List TlsAnswer)
  | drop

def Handshaking.next (side : Side) (s : Handshaking) (l : Label) : Option Handshaking :=
  match s.status with
  | .running k =>
    match l with
    | .poll rounds => (resume side.round rounds s.stream k).map fun r =>
      match r with
      | (stream, .inl k) => ⟨stream, .running k⟩
      | (stream, .inr result) => ⟨stream, .ended result⟩
    | .drop => some ⟨k.drop s.stream, .dropped⟩
  | _ => none

/-- One call of a handshake on a stream that may be in any state. -/
def handshaking (side : Side) (stream : TlsStream) : System Handshaking Label where
  start := ⟨stream, .running .call⟩
  next := Handshaking.next side

/-! ## The context -/

/-- What OpenSSL does when a stream is made: `Ssl::new` may fail with an error
stack, and then there is the pair of buffers. -/
structure Creation where
  ssl : Except (List Nat) Unit
  pair : BioPair

def createSsl (c : Creation) (bufsize : Nat) (isServer : Bool) : Except Errno TlsServer :=
  (c.ssl.mapError asOpensslError).bind fun _ =>
    (TlsServer.fromSsl c.pair bufsize isServer).mapError asIoError

/-- What the context returns after `polls`; `none` while it is pending, and
when its future is gone. -/
def connect (side : Side) (c : Creation) (bufsize socket : Nat) (polls : List Label) :
    Option (Except Errno TlsStream) :=
  match createSsl c bufsize (side = .server) with
  | .error e => some (.error e)
  | .ok ssl =>
    let stream := TlsStream.newTlsstream ssl socket
    ((handshaking side stream).run (handshaking side stream).start polls).bind fun s =>
      match s.status with
      | .ended .ok => some (.ok s.stream)
      | .ended (.error e) => some (.error e)
      | _ => none

namespace TlsContext

def server := connect .server

def client := connect .client

end TlsContext

/-! ## What a round does to the handle -/

/-- The buffers may have changed, and nothing else. -/
def BioOnly (s s' : TlsStream) : Prop := ∃ bio, s' = s.withBio bio

theorem BioOnly.refl (s : TlsStream) : BioOnly s s := ⟨s.ssl.bio, rfl⟩

/-- `try_read` changes the BIO only. -/
theorem tryReadRound_bioOnly (t : TlsAnswer) (s : TlsStream) (k : TryRead) :
    BioOnly s (tryReadRound t s k).1 := by
  unfold tryReadRound
  split
  · split
    · exact .refl s
    · split
      · exact .refl s
      · next bio _ => exact ⟨bio, rfl⟩
      · next bio _ _ => exact ⟨bio, rfl⟩
  · split
    · exact .refl s
    · exact ⟨_, rfl⟩
    · dsimp only
      split
      · exact ⟨_, rfl⟩
      · exact ⟨_, rfl⟩

/-- `try_write` changes the BIO only. -/
theorem tryWriteRound_bioOnly (t : TlsAnswer) (s : TlsStream) (k : TryWrite) :
    BioOnly s (tryWriteRound t s k).1 := by
  unfold tryWriteRound
  split
  · split
    · exact .refl s
    · exact .refl s
  · split
    · exact .refl s
    · next bio _ => exact ⟨bio, rfl⟩
    · next bio _ _ => exact ⟨bio, rfl⟩
  · split
    · exact .refl s
    · exact ⟨_, rfl⟩
    · dsimp only
      split
      · exact ⟨_, rfl⟩
      · exact ⟨_, rfl⟩

theorem Handshake.drop_bioOnly (s : TlsStream) (k : Handshake) : BioOnly s (k.drop s) := by
  unfold Handshake.drop
  split
  · exact ⟨_, rfl⟩
  · exact ⟨_, rfl⟩
  · exact .refl s

/-- From `start` to `s`, `SSL_do_handshake` has answered `answers`. -/
structure Since (start s : TlsStream) (answers : List Answer) : Prop where
  handshakes : s.ssl.handshakes = start.ssl.handshakes ++ answers
  state : s.ssl.state = start.ssl.state.after answers

section

variable {side : Side} {start s s' : TlsStream} {answers : List Answer}

theorem Since.refl (start : TlsStream) : Since start start [] :=
  ⟨(List.append_nil _).symm, rfl⟩

theorem Since.bioOnly (h : Since start s answers) (hs : BioOnly s s') : Since start s' answers := by
  obtain ⟨bio, rfl⟩ := hs
  exact ⟨h.handshakes, h.state⟩

theorem Since.doHandshake (h : Since start s answers) (a : Answer) :
    Since start { s with ssl := (s.ssl.doHandshake a).1 } (answers ++ [a]) where
  handshakes := by
    show s.ssl.handshakes ++ [a] = _
    rw [h.handshakes, List.append_assoc]
  state := by
    show (s.ssl.state.respond a).1 = _
    rw [h.state, TlsHandleState.after, TlsHandleState.after, List.foldl_append]
    rfl

/-- OpenSSL has reported that the handshake is complete. -/
def Completed (answers : List Answer) : Prop := ∃ a ∈ answers, a.completes

instance : Decidable (Completed answers) :=
  inferInstanceAs (Decidable (∃ a ∈ answers, a.completes))

/-- Neither has happened yet. -/
def Unfinished (start s : TlsStream) : Prop :=
  ∃ answers, Since start s answers ∧ ¬ Completed answers ∧ ¬ start.ssl.state.closedBy answers

/-- Where a call of `side` ends with `result`. -/
def Finished (side : Side) (start s : TlsStream) (result : CallEnd) : Prop :=
  ∃ answers, Since start s answers ∧ ((result = .ok → Completed answers) ↔
      ¬ (side = .client ∧ start.ssl.state.closedBy answers))

theorem Unfinished.bioOnly (h : Unfinished start s) (hs : BioOnly s s') : Unfinished start s' := by
  obtain ⟨answers, hsince, hrest⟩ := h
  exact ⟨answers, hsince.bioOnly hs, hrest⟩

theorem completed_concat : Completed (answers ++ [a]) ↔ Completed answers ∨ a.completes := by
  simp [Completed, or_and_right, exists_or]

/-- A call that fails before anything was decided. -/
theorem Unfinished.failed (h : Unfinished start s) (hne : result ≠ .ok) :
    Finished side start s result := by
  obtain ⟨answers, hsince, -, hclosed⟩ := h
  exact ⟨answers, hsince, iff_of_true (fun heq => absurd heq hne) fun hboth => hclosed hboth.2⟩

/-- The end of a round of a handshake. -/
abbrev RoundEnds (side : Side) (start : TlsStream) : TlsStream × Resume Handshake CallEnd → Prop :=
  Resume.Ends (fun s _ => Unfinished start s) (fun s _ => Unfinished start s) (Finished side start)

theorem Unfinished.proceed (h : Unfinished start s) (result : CallEnd) :
    RoundEnds side start (s, Handshake.proceed result) := by
  cases result with
  | ok => exact h
  | error | panicked => exact h.failed nofun

theorem Unfinished.moves (h : Unfinished start s) (inside : κ → Handshake) (r : Resume κ CallEnd) :
    RoundEnds side start (s, r.call inside Handshake.proceed) := by
  cases r with
  | goto | suspend => exact h
  | ret result => exact h.proceed result

/-- What an end of file means. -/
def Side.eof : Side → CallEnd
  | .client => .ok
  | .server => .error proto

theorem Side.round_eq : side.round = handshakeRound side.eof := by
  cases side with
  | client | server => rfl

/-- A call that OpenSSL ends with an end of file. -/
theorem finished_eof (hsince : Since start s answers) (hcompleted : ¬ Completed answers)
    (hclosed : start.ssl.state.closedBy answers) : Finished side start s side.eof := by
  refine ⟨answers, hsince, ?_⟩
  cases side with
  | client => exact iff_of_false (fun h => hcompleted (h rfl)) fun h => h ⟨rfl, hclosed⟩
  | server => exact iff_of_true nofun nofun

/-- The round that calls `SSL_do_handshake`. -/
theorem Unfinished.call (h : Unfinished start s) (t : TlsAnswer) :
    RoundEnds side start (handshakeRound side.eof t s .call) := by
  obtain ⟨answers, hsince, hcompleted, hclosed⟩ := h
  have hsince' := hsince.doHandshake t.ssl
  have hresponse :
      (s.ssl.doHandshake t.ssl).2 = ((start.ssl.state.after answers).respond t.ssl).2 := by
    rw [← hsince.state]
    rfl
  have hclosed' : start.ssl.state.closedBy (answers ++ [t.ssl]) ↔
      (s.ssl.doHandshake t.ssl).2 = .eof := by
    rw [TlsHandleState.closedBy_concat, hresponse, or_iff_right hclosed]
  -- a handshake that is complete has the response `Success`
  have hcompleted' (hne : (s.ssl.doHandshake t.ssl).2 ≠ .success 0) :
      ¬ Completed (answers ++ [t.ssl]) := by
    rw [completed_concat, or_iff_right hcompleted]
    intro hone
    rw [hresponse, TlsHandleState.respond_completes hone] at hne
    exact hne rfl
  rw [handshakeRound]
  split
  · next amount hr =>
    have hone : t.ssl.completes := TlsHandleState.respond_success (hresponse.symm.trans hr)
    refine ⟨_, hsince', iff_of_true (fun _ => completed_concat.mpr (.inr hone)) fun hboth => ?_⟩
    have hr' := hclosed'.mp hboth.2
    rw [hr] at hr'
    cases hr'
  · next e hr =>
    rw [hr] at hclosed' hcompleted'
    have hunfinished : Unfinished start { s with ssl := (s.ssl.doHandshake t.ssl).1 } :=
      ⟨_, hsince', hcompleted' nofun, fun h => nomatch hclosed'.mp h⟩
    exact hunfinished.proceed _
  · next hr =>
    rw [hr] at hclosed' hcompleted'
    exact ⟨_, hsince', hcompleted' nofun, fun h => nomatch hclosed'.mp h⟩
  · next hr =>
    rw [hr] at hclosed' hcompleted'
    exact ⟨_, hsince', hcompleted' nofun, fun h => nomatch hclosed'.mp h⟩
  · next hr =>
    rw [hr] at hclosed' hcompleted'
    exact finished_eof hsince' (hcompleted' nofun) (hclosed'.mpr rfl)

theorem Unfinished.round (h : Unfinished start s) (t : TlsAnswer) (k : Handshake) :
    RoundEnds side start (side.round t s k) := by
  rw [Side.round_eq]
  cases k with
  | call => exact h.call t
  | reading k => exact (h.bioOnly (tryReadRound_bioOnly t s k)).moves .reading _
  | writing k => exact (h.bioOnly (tryWriteRound_bioOnly t s k)).moves .writing _

end

/-! ## Whole handshakes -/

/-- What is known of a handshake at any time. -/
def Handshaking.Inv (side : Side) (start : TlsStream) (s : Handshaking) : Prop :=
  match s.status with
  | .running _ => Unfinished start s.stream
  | .ended result => Finished side start s.stream result
  | .dropped => Unfinished start s.stream

theorem Handshaking.Inv.next {s s' : Handshaking} (h : s.Inv side start)
    (hs : s.next side l = some s') : s'.Inv side start := by
  unfold Handshaking.next at hs
  unfold Handshaking.Inv at h
  split at hs
  · next k hk =>
    rw [hk] at h
    cases l with
    | poll rounds =>
      obtain ⟨r, hr, rfl⟩ := Option.map_eq_some_iff.mp hs
      have hpolled := resume_rule (fun t s k (h : Unfinished start s) => h.round t k) h hr
      obtain ⟨stream, place | result⟩ := r
      · exact hpolled
      · exact hpolled
    | drop =>
      cases hs
      exact h.bioOnly (Handshake.drop_bioOnly s.stream k)
  · cases hs

/-- The invariant holds in every run. -/
theorem inv_of_run
    (h : (handshaking side start).run (handshaking side start).start polls = some s) :
    s.Inv side start := by
  refine (System.reaches_run h).invariant (P := Handshaking.Inv side start) ?_
    fun _ _ _ hinv _ hs => hinv.next hs
  exact ⟨[], .refl start, nofun, nofun⟩

/-- What OpenSSL has answered when a handshake ends with `Ok`. -/
theorem handshake_ok
    (h : (handshaking side start).run (handshaking side start).start polls = some s) :
    ∃ answers, s.stream.ssl.handshakes = start.ssl.handshakes ++ answers ∧
      ((s.status = .ended .ok → Completed answers) ↔
        ¬ (side = .client ∧ start.ssl.state.closedBy answers)) := by
  have hinv := inv_of_run h
  unfold Handshaking.Inv at hinv
  split at hinv
  · next hstatus =>
    obtain ⟨answers, hsince, -, hclosed⟩ := hinv
    refine ⟨answers, hsince.handshakes, iff_of_true ?_ fun hboth => hclosed hboth.2⟩
    rw [hstatus]
    exact nofun
  · next result hstatus =>
    obtain ⟨answers, hsince, hiff⟩ := hinv
    refine ⟨answers, hsince.handshakes, ?_⟩
    rw [hstatus, Status.ended.injEq]
    exact hiff
  · next hstatus =>
    obtain ⟨answers, hsince, -, hclosed⟩ := hinv
    refine ⟨answers, hsince.handshakes, iff_of_true ?_ fun hboth => hclosed hboth.2⟩
    rw [hstatus]
    exact nofun

theorem createSsl_ok (h : createSsl c bufsize isServer = .ok ssl) :
    ssl.handshakes = [] ∧ ssl.state = .handshakeWantWrite := by
  obtain ⟨made, pair⟩ := c
  cases made with
  | error stack => cases h
  | ok u =>
    replace h : (TlsServer.fromSsl pair bufsize isServer).mapError asIoError = .ok ssl := h
    unfold TlsServer.fromSsl at h
    split at h
    · cases h
    · split at h
      · cases h
      · split at h
        · cases h
        · cases h
          exact ⟨rfl, rfl⟩

/-- **The handshake.** A call of a handshake on any stream, and a stream that
the context returns: `Ok` means that OpenSSL has reported a complete
handshake, if and only if it is not the client that was told that the peer has
closed the session. -/
theorem handshake_ok_iff (side : Side) :
    (∀ (start : TlsStream) (polls : List Label) (s : Handshaking),
      (handshaking side start).run (handshaking side start).start polls = some s →
      ∃ answers, s.stream.ssl.handshakes = start.ssl.handshakes ++ answers ∧
        ((s.status = .ended .ok → Completed answers) ↔
          ¬ (side = .client ∧ start.ssl.state.closedBy answers))) ∧
    ∀ (c : Creation) (bufsize socket : Nat) (polls : List Label) (stream : TlsStream),
      connect side c bufsize socket polls = some (.ok stream) →
      (Completed stream.ssl.handshakes ↔ ¬ (side = .client ∧
          TlsHandleState.handshakeWantWrite.closedBy stream.ssl.handshakes)) := by
  refine ⟨fun start polls s h => handshake_ok h, fun c bufsize socket polls stream h => ?_⟩
  unfold connect at h
  split at h
  · cases h
  · next ssl hssl =>
    obtain ⟨s, hrun, h⟩ := Option.bind_eq_some_iff.mp h
    obtain ⟨hhandshakes, hstate⟩ := createSsl_ok hssl
    obtain ⟨answers, hanswers, hiff⟩ := handshake_ok hrun
    split at h
    · next hstatus =>
      cases h
      replace hanswers : s.stream.ssl.handshakes = answers := by
        rw [hanswers]
        show ssl.handshakes ++ answers = answers
        rw [hhandshakes, List.nil_append]
      rw [hanswers, ← hstate]
      exact Iff.trans ⟨fun hdone _ => hdone, fun hdone => hdone hstatus⟩ hiff
    · cases h
    · cases h


/-- A round that does not ask OpenSSL, and in which the socket has not moved. -/
def idle : TlsAnswer := ⟨⟨0, 0, [], 0, []⟩, 0, none, none⟩

/-- The client sends its hello, waits for the socket, and completes the
handshake with what it has read. -/
def hello : List Label :=
  [.poll [{ idle with ssl := ⟨-1, 2, [], 0, [7]⟩ }, idle, idle, { idle with wrote := some (.ok 1) },
      idle, { idle with ssl := ⟨-1, 2, [], 0, []⟩ }, { idle with pick := 9 }, idle],
    .poll [{ idle with read := some (.ok [8, 9]) }, { idle with ssl := ⟨1, 0, [], 2, []⟩ }]]

theorem handshake_ok_iff_hello :
    ∃ stream, TlsContext.client ⟨.ok (), ⟨1, [], true, true⟩⟩ 64 3 hello = some (.ok stream) ∧
      TlsHandleState.handshakeWantWrite.closedBy stream.ssl.handshakes = false ∧
      Completed stream.ssl.handshakes := by
  have hrun : ∃ stream,
      TlsContext.client ⟨.ok (), ⟨1, [], true, true⟩⟩ 64 3 hello = some (.ok stream) ∧
        TlsHandleState.handshakeWantWrite.closedBy stream.ssl.handshakes = false :=
    ⟨_, rfl, rfl⟩
  obtain ⟨stream, hstream, hopen⟩ := hrun
  refine ⟨stream, hstream, hopen, ?_⟩
  refine ((handshake_ok_iff .client).2 _ _ _ _ stream hstream).mpr fun hboth => ?_
  rw [hopen] at hboth
  cases hboth.2

/-- The peer closes the TLS session instead: `TlsContext::client` returns a
stream whose handshake was never completed. -/
theorem exists_client_incomplete : ∃ stream, TlsContext.client ⟨.ok (), ⟨1, [], true, true⟩⟩ 64 3
        [.poll [{ idle with ssl := ⟨-1, 2, [], 0, [7]⟩ }, idle, idle,
            { idle with wrote := some (.ok 1) }, idle,
            { idle with ssl := ⟨-1, sslErrorZeroReturn, [], 0, []⟩ }]] = some (.ok stream) ∧
      ¬ Completed stream.ssl.handshakes :=
  ⟨_, rfl, by decide⟩

end Kimojio.Tls
