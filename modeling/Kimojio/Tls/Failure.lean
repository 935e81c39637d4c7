import Kimojio.Tls.Stream

/-!
# Kimojio.Tls.Failure

What a call does when the socket fails: a read or a write of it returns an
error or no byte, a wait for its lock is cancelled, or its half is closed.

Every loop ends then, and does nothing more than to close its socket. It returns
the error unless the close is disturbed: the half is closed already, the wait for
its lock is cancelled, or `close` fails (`failure_ends_iff`). There is one
exception: `shutdown_impl` looks at the error of `try_read` only to see whether it
is a broken pipe. After any other error it calls OpenSSL again, so that it goes
round for as long as the error lasts (`exists_shutdown_loops`).
-/

namespace Kimojio.Tls

open Kimojio.Ring (Errno)

/-! ## Failures -/

/-- The error of a socket read: no byte is the end of the stream. -/
def TlsAnswer.readFailure (t : TlsAnswer) (len : Nat) : Option Errno :=
  match t.read with
  | none => none
  | some (.error e) => some e
  | some (.ok bytes) => if (bytes.take len).length = 0 then some pipe else none

def TlsAnswer.writeFailure (t : TlsAnswer) (len : Nat) : Option Errno :=
  match t.wrote with
  | none => none
  | some (.error e) => some e
  | some (.ok amount) => if min amount len = 0 then some pipe else none

/-- The half is closed, or its socket fails. -/
def TryRead.failure (t : TlsAnswer) (socket : Option Nat) : TryRead → Option Errno
  | .enter => if socket.isNone then some pipe else none
  | .reading len => t.readFailure len

def TryWrite.failure (t : TlsAnswer) (socket : Option Nat) : TryWrite → Option Errno
  | .enter => if socket.isNone then some pipe else none
  | .lease => none
  | .writing len => t.writeFailure len

/-- A wait for a lock is cancelled. -/
def lockFailure (t : LinkAnswer) (s : Link) : Option Errno :=
  if t.canceled && !s.sockets.isWhole then some .canceled else none

def Locked.failure (t : LinkAnswer) (s : Link) (inner : κ → Option Errno) :
    Locked κ → Option Errno
  | .locking => lockFailure t s
  | .inside k => inner k

namespace Place

/-- The failure of a round. -/
def failure (t : LinkAnswer) (s : Link) : Place → Option Errno
  | .reading _ k => k.failure t s (TryRead.failure t.toTlsAnswer (s.sockets.socket .read))
  | .writing _ k | .flushing k =>
    k.failure t s (TryWrite.failure t.toTlsAnswer (s.sockets.socket .write))
  | .failing .. => lockFailure t s
  | .handshake _ (.reading k) => k.failure t.toTlsAnswer (s.sockets.socket .read)
  | .handshake _ (.writing k) => k.failure t.toTlsAnswer (s.sockets.socket .read)
  | _ => none

/-- How a call ends that fails: its socket is closed before the error is
returned. A shutdown takes a broken pipe for its end. -/
def ended (e : Errno) : Place → Resume Place Outcome
  | .reading .shutdown _ => if e = pipe then .ret (.ok 0) else Loop.shutdown.fail e
  | .head loop | .reading loop _ | .writing loop _ | .failing _ loop _ => loop.fail e
  | .flushing _ => .goto (.close .write (.error e))
  | .close .. | .closing _ | .handshake .. => .ret (.error e)

/-- What a call returns that fails. -/
def outcome (e : Errno) : Place → Outcome
  | .reading .shutdown _ => if e = pipe then .ok 0 else .error e
  | _ => .error e

/-- A shutdown does not end. -/
def goesOn (e : Errno) : Place → Bool
  | .reading .shutdown _ => e ≠ pipe
  | _ => false

/-- Neither OpenSSL nor the socket is called. -/
def Silent (k : Place) : Prop := (∀ t, k.asks t = none) ∧ k.holds = none

/-- Where a call is after some rounds, in each of which the stream may be in any
state. -/
def after : List (LinkAnswer × Link) → Place → Option Place
  | [], k => some k
  | (t, s) :: rounds, k => (placeAfter (k.round t s).2).bind (after rounds)

/-- What a call has returned after some rounds. -/
def returned : List (LinkAnswer × Link) → Place → Option Outcome
  | [], _ => none
  | (t, s) :: rounds, k =>
    match (k.round t s).2 with
    | .ret v => some v
    | .goto k | .suspend k => returned rounds k

/-- The half is open where it is closed, the wait for its lock is not cancelled, and
`close` does not fail. -/
def undisturbed (t : LinkAnswer) (s : Link) : Place → Bool
  | .close half _ => (lockFailure t s).isNone && (s.sockets.socket half).isSome
  | .closing _ => t.closed.join.isNone
  | _ => true

/-- All rounds of a call are undisturbed. -/
def undisturbedIn : List (LinkAnswer × Link) → Place → Bool
  | [], _ => true
  | (t, s) :: rounds, k =>
    k.undisturbed t s && (placeAfter (k.round t s).2).all (undisturbedIn rounds)

end Place

/-- A call ends with `v`: it calls neither OpenSSL nor the socket any more, it returns
nothing but `v` unless it is disturbed, and it returns when it has got the lock of
its half, and `close` has succeeded. -/
def EndsWith (v : Outcome) : Resume Place Outcome → Prop
  | .ret v' => v' = v
  | .goto k | .suspend k =>
    (∀ rounds k', k.after rounds = some k' → k'.Silent) ∧
    (∀ rounds v', k.undisturbedIn rounds = true → k.returned rounds = some v' → v' = v) ∧
    ∀ half t s sockets t' s', k.half = some half →
      s.sockets.lock half t.canceled = .granted sockets → (sockets.socket half).isSome = true →
      t'.closed = some none → k.returned [(t, s), (t', s')] = some v

/-! ## The loops -/

variable {t : LinkAnswer} {s : Link} {e : Errno}

/-- `try_read` returns the failure of its socket. -/
theorem tryReadRound_failure {k : TryRead} (h : k.failure t.toTlsAnswer socket = some e)
    (ssl : TlsServer) : (tryReadRound t.toTlsAnswer ⟨ssl, socket⟩ k).2 = .ret (.error e) := by
  cases k with
  | enter =>
    cases socket with
    | none =>
      cases h
      rfl
    | some fd => cases h
  | reading len =>
    simp only [TryRead.failure, TlsAnswer.readFailure] at h
    rw [tryReadRound]
    rcases hread : t.read with _ | e' | bytes
    · simp [hread] at h
    · simpa [hread] using h
    · obtain ⟨hnone, rfl⟩ : (bytes.take len).length = 0 ∧ pipe = e := by simpa [hread] using h
      simp [hnone]

/-- `try_write` returns the failure of its socket. -/
theorem tryWriteRound_failure {k : TryWrite} (h : k.failure t.toTlsAnswer socket = some e)
    (ssl : TlsServer) : (tryWriteRound t.toTlsAnswer ⟨ssl, socket⟩ k).2 = .ret (.error e) := by
  cases k with
  | enter =>
    cases socket with
    | none =>
      cases h
      rfl
    | some fd => cases h
  | lease => cases h
  | writing len =>
    simp only [TryWrite.failure, TlsAnswer.writeFailure] at h
    rw [tryWriteRound]
    rcases hwrote : t.wrote with _ | e' | amount
    · simp [hwrote] at h
    · simpa [hwrote] using h
    · obtain ⟨hnone, rfl⟩ : min amount len = 0 ∧ pipe = e := by simpa [hwrote] using h
      simp [hnone]

/-- Only the halves of a stream wait for locks. -/
theorem lock_canceled (h : lockFailure t s = some e) (half : Half) :
    s.sockets.lock half t.canceled = .canceled ∧ e = .canceled := by
  unfold lockFailure at h
  cases hs : s.sockets with
  | whole socket => simp [hs, Sockets.isWhole] at h
  | shared =>
    obtain ⟨hcanceled, rfl⟩ : t.canceled = true ∧ Errno.canceled = e := by
      simpa [hs, Sockets.isWhole] using h
    simp [Sockets.lock, hcanceled]

/-- A function that has the lock fails as its body does. -/
theorem lockedRound_failure {inner : κ → Option Errno}
    {round : TlsAnswer → TlsStream → κ → TlsStream × Resume κ CallEnd}
    {k : Locked κ} (h : k.failure t s inner = some e)
    (hround : ∀ k, inner k = some e →
      (round t.toTlsAnswer ⟨s.ssl, s.sockets.socket half⟩ k).2 = .ret (.error e)) :
    (lockedRound half enter round t s k).2 = .ret (.error e) := by
  cases k with
  | locking =>
    obtain ⟨hlock, rfl⟩ := lock_canceled h half
    rw [lockedRound, hlock]
  | inside k =>
    have hret := hround k h
    simp only [lockedRound, hret]

/-- What a round does that fails. -/
theorem round_failure {k : Place} (h : k.failure t s = some e) :
    (k.round t s).2 = if k.goesOn e then .goto (.head .shutdown) else k.ended e := by
  cases k with
  | reading loop k =>
    have hret : (tryRead t s k).2 = .ret (.error e) :=
      lockedRound_failure h fun _ hk => tryReadRound_failure hk s.ssl
    rw [Place.round, hret]
    cases loop with
    | tryRead | read | write => rfl
    | shutdown =>
      by_cases he : e = pipe <;> simp [Resume.call, Loop.proceedRead, Place.goesOn, Place.ended, he]
  | writing loop k | flushing k =>
    have hret : (tryWrite t s k).2 = .ret (.error e) :=
      lockedRound_failure h fun _ hk => tryWriteRound_failure hk s.ssl
    rw [Place.round, hret]
    rfl
  | failing half loop cause =>
    have hlock := lock_canceled h half
    cases half <;> simp [Place.round, failingRound, hlock, Place.goesOn, Place.ended]
  | handshake side k =>
    rw [Place.round, Side.round_eq]
    cases k with
    | call => cases h
    | reading k =>
      rw [handshakeRound, tryReadRound_failure h]
      rfl
    | writing k =>
      rw [handshakeRound, tryWriteRound_failure h]
      rfl
  | head | close | closing => cases h

/-! ## The end of a call -/

/-- The outcome of a call that closes its socket. -/
def Place.cause : Place → Option Outcome
  | .close _ v | .closing v => some v
  | _ => none

/-- A call that closes its socket does nothing else. -/
theorem Place.silent_of_cause {k : Place} (h : k.cause = some v) : k.Silent := by
  cases k with
  | close | closing => exact ⟨fun _ => rfl, rfl⟩
  | _ => cases h

/-- It keeps its outcome as long as it goes on. -/
theorem Place.cause_round {k k' : Place} (h : k.cause = some v)
    (hk : placeAfter (k.round t s).2 = some k') : k'.cause = some v := by
  cases k with
  | close half c =>
    cases h
    rw [Place.round, closeRound] at hk
    split at hk
    · dsimp only at hk
      split at hk
      · cases hk
        rfl
      · cases hk
    · cases hk
      rfl
    · cases hk
  | closing c =>
    cases h
    rw [Place.round, closingRound] at hk
    split at hk
    · cases hk
      rfl
    · cases hk
    · cases hk
  | _ => cases h

theorem Place.cause_after {k k' : Place} (h : k.cause = some v)
    (hk : k.after rounds = some k') : k'.cause = some v := by
  induction rounds generalizing k with
  | nil =>
    cases hk
    exact h
  | cons round rounds ih =>
    obtain ⟨k₁, hk₁, hk⟩ := Option.bind_eq_some_iff.mp hk
    exact ih (cause_round h hk₁) hk

theorem lockFailure_of_canceled (h : s.sockets.lock half t.canceled = .canceled) :
    lockFailure t s = some .canceled := by
  unfold Sockets.lock at h
  split at h
  · cases h
  · next hshared =>
    split at h
    · next hcanceled => cases hs : s.sockets <;> simp_all [lockFailure, Sockets.isWhole]
    · split at h <;> cases h

theorem Sockets.socket_lock {sockets sockets' : Sockets}
    (h : sockets.lock half canceled = .granted sockets') :
    sockets'.socket half = sockets.socket half := by
  unfold lock at h
  split at h
  · cases h
    rfl
  · split at h
    · cases h
    · split at h
      · cases h
      · cases h
        cases half <;> cases sockets <;> rfl

/-- Where it is not disturbed, it returns its outcome. -/
theorem Place.eq_of_ret {k : Place} (h : k.cause = some v) (hround : k.undisturbed t s = true)
    (hret : (k.round t s).2 = .ret v') : v' = v := by
  cases k with
  | close half c =>
    simp only [undisturbed, Bool.and_eq_true] at hround
    rw [Place.round, closeRound] at hret
    split at hret
    · next hlock =>
      rw [Sockets.socket_lock hlock, if_pos hround.2] at hret
      cases hret
    · cases hret
    · next hlock => simp [lockFailure_of_canceled hlock] at hround
  | closing c =>
    cases h
    rw [Place.round, closingRound] at hret
    split at hret
    · cases hret
    · next hclosed => simp [undisturbed, hclosed] at hround
    · cases hret
      rfl
  | _ => cases h

theorem Place.eq_of_returned {k : Place} (h : k.cause = some v)
    (hrounds : k.undisturbedIn rounds = true) (hret : k.returned rounds = some v') : v' = v := by
  induction rounds generalizing k with
  | nil => cases hret
  | cons round rounds ih =>
    obtain ⟨t, s⟩ := round
    obtain ⟨hround, hrest⟩ := Bool.and_eq_true_iff.mp hrounds
    have hcause (k' : Place) (hk : placeAfter (k.round t s).2 = some k') := cause_round h hk
    cases hr : (k.round t s).2 with
    | ret v₁ =>
      simp only [returned, hr] at hret
      cases hret
      exact eq_of_ret h hround hr
    | goto k' | suspend k' =>
      rw [hr] at hrest hcause
      simp only [returned, hr] at hret
      exact ih (hcause k' rfl) hrest hret

/-- It returns when it has got the lock, and the socket is closed. -/
theorem returned_of_granted (hlock : s.sockets.lock half t.canceled = .granted sockets)
    (hopen : (sockets.socket half).isSome = true) (hclosed : t'.closed = some none) :
    (Place.close half v).returned [(t, s), (t', s')] = some v := by
  simp [Place.returned, Place.round, closeRound, hlock, hopen, closingRound, hclosed]

/-- A call that fails returns at once, or closes its socket. -/
theorem Place.ended_cases (e : Errno) (k : Place) : k.ended e = .ret (k.outcome e) ∨
    ∃ half, k.ended e = .goto (.close half (k.outcome e)) := by
  cases k with
  | reading loop k =>
    cases loop with
    | tryRead | read | write => exact .inr ⟨_, rfl⟩
    | shutdown =>
      by_cases he : e = pipe
      · exact .inl (by simp [ended, outcome, he])
      · exact .inr ⟨.write, by simp [ended, outcome, he, Loop.fail, Loop.half]⟩
  | head | writing | failing | flushing => exact .inr ⟨_, rfl⟩
  | close | closing | handshake => exact .inl rfl

theorem Place.endsWith_ended (e : Errno) (k : Place) : EndsWith (k.outcome e) (k.ended e) := by
  obtain hret | ⟨half, hclose⟩ := k.ended_cases e
  · rw [hret]
    rfl
  · rw [hclose]
    refine ⟨fun rounds k' hk' => silent_of_cause (cause_after rfl hk'),
      fun rounds v' => eq_of_returned rfl, fun half' t s sockets t' s' hhalf => ?_⟩
    cases hhalf
    exact returned_of_granted

/-- **Failures**: the first one ends a call, with that error and without another
call of OpenSSL or of the socket, unless it is met by the `try_read` of a
shutdown and is not a broken pipe. -/
theorem failure_ends_iff (t : LinkAnswer) (s : Link) (k : Place) (e : Errno)
    (h : k.failure t s = some e) :
    ((k.round t s).2 = k.ended e ↔ k.goesOn e = false) ∧ EndsWith (k.outcome e) (k.ended e) := by
  refine ⟨?_, k.endsWith_ended e⟩
  rw [round_failure h]
  cases hgoes : k.goesOn e with
  | false => simp
  | true =>
    have hne : Resume.goto (.head .shutdown) ≠ k.ended e := by
      obtain hret | ⟨half, hclose⟩ := k.ended_cases e
      · simp [hret]
      · simp [hclose]
    simpa using hne

/-- A read that meets a reset connection. -/
theorem failure_ends_iff_reset :
    ((Place.reading (.read 1) (.inside (.reading 4))).round
      { still with read := some (.error ⟨104⟩) } (Session.new 64 false 3).link).2 =
      .goto (.close .read (.error ⟨104⟩)) ∧
    EndsWith (.error ⟨104⟩) (.goto (.close .read (.error ⟨104⟩))) :=
  have hends := failure_ends_iff { still with read := some (.error ⟨104⟩) }
    (Session.new 64 false 3).link (.reading (.read 1) (.inside (.reading 4))) ⟨104⟩ rfl
  ⟨hends.1.mpr rfl, hends.2⟩

/-- OpenSSL wants to read, and the connection was reset. -/
def resetRounds : List StreamLabel :=
  [.round .write (asked (-1) sslErrorWantRead []), .round .write still, .round .write still,
    .round .write { still with read := some (.error ⟨104⟩) }]

/-- A shutdown goes round as often as the read fails, in a stream that stays as
it is. -/
theorem exists_shutdown_loops :
    ∃ s : Session, (streaming 64 false 3).Reaches (fun _ _ => True) s ∧
      s.writer = .running .shutdown (.head .shutdown) ∧
      ((streaming 64 false 3).run s resetRounds) = some s := by
  have hrun : ((streaming 64 false 3).run (streaming 64 false 3).start
      (.start .shutdown :: resetRounds)).any (fun s =>
        s.writer = .running .shutdown (.head .shutdown) ∧
          (streaming 64 false 3).run s resetRounds = some s) = true := by
    decide +kernel
  obtain ⟨s, hreach, hs⟩ := System.exists_run hrun
  exact ⟨s, hreach, of_decide_eq_true hs⟩

end Kimojio.Tls
