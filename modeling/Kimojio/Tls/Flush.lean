import Kimojio.Tls.Stream

/-!
# Kimojio.Tls.Flush

Does a stream wait for the peer while it has bytes that the peer is waiting
for? It writes the socket when OpenSSL asks for room, and at the end of a
`write`; when OpenSSL asks for bytes from the peer, it reads the socket at
once, with whatever OpenSSL has put into the outgoing buffer.

A flush that does not fail empties the buffer (`tryWrite_ok`). So the buffer is
empty at every socket read of a run in which every output of OpenSSL is followed
by such a flush (`outgoing_empty_of_reads`). An OpenSSL that sends what it can in
every call has other output too: a flight of the handshake that is larger than
the buffer is written in two parts, and the stream reads before the second
(`exists_reads_unflushed`).
-/

namespace Kimojio.Tls

/-! ## OpenSSL -/

/-- How a call ends in which the output `left` did not fit: with `WANT_WRITE`,
and otherwise with success or `WANT_READ`. -/
def Answer.reports (a : Answer) (left : List UInt8) : Bool :=
  if left.isEmpty then 0 < a.result || (a.result < 0 && a.error = sslErrorWantRead)
  else a.result < 0 && a.error = sslErrorWantWrite

namespace Session

/-- The steps of an OpenSSL that in every call puts its output into the buffer,
as far as it fits, beginning with what did not fit before. -/
def putsOutput (s : Session) : StreamLabel → Bool
  | .round half t =>
    match s.slot half with
    | .running _ k =>
      match k.asks t with
      | some a => s.pending.isPrefixOf a.puts && a.reports (a.puts.drop s.outgoing.room)
      | none => true
    | _ => true
  | _ => true

end Session

/-! ## The condition -/

/-- OpenSSL has accepted a part of the `write`, which is flushed at its end. -/
def Loop.owes (offers : List Offer) : Loop → Bool
  | .write .. => offers.any fun o => 0 < o.amount
  | _ => false

/-- A flush has ended, and not well. -/
def flushFailed : Resume κ CallEnd → Bool
  | .ret .ok | .goto _ | .suspend _ => false
  | .ret _ => true

namespace Place

/-- OpenSSL is called in the round, and `try_write` comes next, or at the end of
the `write`. -/
def flushes (t : LinkAnswer) (s : Link) : Place → Bool
  | .head loop =>
    match loop, (loop.call t.ssl s.ssl).2 with
    | _, .wantWrite | .write .., .success _ => true
    | _, _ => false
  | .handshake _ .call => (s.ssl.doHandshake t.ssl).2 = .wantWrite
  | _ => false

/-- There may be output that has not been flushed. -/
def unflushed (offers : List Offer) : Place → Bool
  | .head loop => loop.owes offers
  | .writing .. | .flushing _ | .handshake _ (.writing _) => true
  | _ => false

/-- OpenSSL puts no bytes into the buffer, and it is not called in a `write` of which
it has accepted a part. -/
def quiet (t : LinkAnswer) (offers : List Offer) (k : Place) : Bool :=
  (k.asks t).all (fun a => a.puts.isEmpty) &&
    match k with
    | .head loop => !loop.owes offers
    | _ => true

/-- A `try_write` fails in the round. -/
def flushFails (t : LinkAnswer) (s : Link) : Place → Bool
  | .writing _ k | .flushing k => flushFailed (tryWrite t s k).2
  | .handshake _ (.writing k) =>
    flushFailed (tryWriteRound t.toTlsAnswer ⟨s.ssl, s.sockets.socket .read⟩ k).2
  | _ => false

/-- The socket is being read. -/
def readsSocket (k : Place) : Bool :=
  match k.holds with
  | some (.write, _) => true
  | _ => false

end Place

def Session.readsSocket (half : Half) (s : Session) : Bool :=
  match s.slot half with
  | .running _ k => k.readsSocket
  | _ => false

/-- OpenSSL puts bytes into the buffer only where a flush follows: when it asks for room,
and in a `write`, where it goes on until it has accepted everything. No flush fails, and
no call is dropped before its flush. -/
def Session.keepsUp (s : Session) : StreamLabel → Bool
  | .round half t =>
    match s.slot half with
    | .running _ k =>
      (k.flushes t s.link || k.quiet t s.offers) && !k.flushFails t s.link
    | _ => true
  | .drop half _ =>
    match s.slot half with
    | .running _ k => !k.unflushed s.offers
    | _ => true
  | _ => true

/-! ## One round -/

/-- Where no flush is due, the outgoing buffer is empty. -/
def Settled (s : Link) (offers : List Offer) (k : Option Place) : Prop :=
  k.any (Place.unflushed offers) = false → s.ssl.bio.outgoing.len = 0

section

variable {t : LinkAnswer} {s : Link} {offers : List Offer} {k : Place}

theorem Settled.of_unflushed (hk : k.unflushed offers = true) : Settled s offers (some k) :=
  fun h => by cases hk.symm.trans h

/-- A flush goes on, or it has emptied the buffer. -/
theorem Settled.flush {r : Resume κ CallEnd} {inside : κ → Place}
    {after : CallEnd → Resume Place Outcome} (hinside : ∀ k, (inside k).unflushed offers = true)
    (hok : r = .ret .ok → s.ssl.bio.outgoing.len = 0) (hfailed : flushFailed r = false) :
    Settled s offers (placeAfter (r.call inside after)) := by
  cases r with
  | goto k | suspend k => exact .of_unflushed (hinside k)
  | ret v =>
    cases v with
    | ok => exact fun _ => hok rfl
    | error | panicked => cases hfailed

/-- OpenSSL puts nothing into the buffer, and nothing is written to the socket. -/
theorem Effect.len_eq (he : Effect a answer bio l bio' l')
    (hputs : answer.all (fun a => a.puts.isEmpty) = true) (hl : ∀ len, l ≠ some (.read, len)) :
    bio'.outgoing.len = bio.outgoing.len := by
  cases he with
  | keep | hold | commit => rfl
  | ask a =>
    have hnil : a.puts = [] := by simpa using hputs
    simp [Bio.put, Bio.len, hnil]
  | enter => rw [ApplicationBio.outgoing_setCallback]
  | leave => rw [ApplicationBio.outgoing_leaveCallback]
  | consume => exact absurd rfl (hl _)

/-- What OpenSSL accepts of a buffer is not nothing. -/
theorem transfer_success {ssl : TlsServer} (h : (ssl.transfer len a).2 = .success amount)
    (hlen : 0 < len) : len ≤ cIntMax ∧ 0 < amount := by
  unfold TlsServer.transfer at h
  rw [if_neg (by omega)] at h
  split at h
  · cases h
  · next hfits =>
    rw [sslIoResponse] at h
    split at h
    · cases h
      omega
    · exact absurd h (sslErrorResponse_ne_success _ _ _)

/-- The socket is written only where a flush is due. -/
theorem Place.holds_ne (h : k.unflushed offers = false) (len : Nat) :
    k.holds ≠ some (.read, len) := by
  cases k with
  | writing | flushing => cases h
  | handshake side k =>
    cases k with
    | call => nofun
    | reading k => cases k <;> nofun
    | writing => cases h
  | reading loop k =>
    cases k with
    | locking => nofun
    | inside k => cases k <;> nofun
  | head | failing | close | closing => nofun

theorem Place.flushed_of_readsSocket (h : k.readsSocket = true) : k.unflushed offers = false := by
  cases k with
  | writing loop k | flushing k =>
    cases k with
    | locking => cases h
    | inside k => cases k <;> cases h
  | handshake side k =>
    cases k with
    | call | reading => rfl
    | writing k => cases k <;> cases h
  | head => cases h
  | reading | failing | close | closing => rfl

/-- A round without output, where no flush is due. -/
theorem Settled.quiet (h : Settled s offers (some k)) (hk : k.unflushed offers = false)
    (hputs : ((k.asks t).all fun a => a.puts.isEmpty) = true) (offers' : List Offer)
    (k' : Option Place) : Settled (k.round t s).1 offers' k' :=
  fun _ => ((k.round_effect t s).len_eq hputs (k.holds_ne hk)).trans (h hk)

end

section

variable {t : LinkAnswer} {s : Session} {k : Place}

/-- OpenSSL asks for room, or it accepts a part of a `write`. -/
theorem Settled.head (loop : Loop) (h : Settled s.link s.offers (some (.head loop)))
    (hflushes : (Place.head loop).flushes t s.link = true) :
    Settled (loop.headRound t s.link).1 (s.offers ++ s.offer t (.head loop))
      (placeAfter (loop.headRound t s.link).2) := by
  rw [Loop.headRound.eq_def]
  split
  · cases hflushes
  · exact .of_unflushed rfl
  · next buffer rest =>
    have hnone : s.offer t (.head (.write [] (buffer :: rest))) = [] := rfl
    rw [hnone, List.append_nil]
    exact h
  · next hread hdone hnext =>
    unfold Place.flushes at hflushes
    dsimp only at hflushes ⊢
    split at hflushes
    · next hresponse =>
      rw [hresponse]
      exact .of_unflushed rfl
    · next buffer rest amount hresponse =>
      have hne : 0 < buffer.length := by
        refine List.length_pos_iff.mpr fun hnil => ?_
        cases rest with
        | nil => exact hdone (by rw [hnil])
        | cons next rest => exact hnext next rest (by rw [hnil])
      obtain ⟨hfits, hamount⟩ := transfer_success hresponse hne
      have hoffer : s.offer t (.head (.write buffer rest)) = [⟨buffer, amount⟩] := by
        have hwrite : (TlsServer.write buffer t.ssl s.link.ssl).2 = .success amount := hresponse
        simp [Session.offer, hne, hfits, hwrite]
      rw [hresponse, hoffer]
      exact .of_unflushed (by simp [Place.unflushed, Loop.owes, hamount])
    · cases hflushes

/-- **One round** in which OpenSSL keeps up. -/
theorem Settled.round (h : Settled s.link s.offers (some k))
    (hputs : k.flushes t s.link = true ∨ k.quiet t s.offers = true)
    (hfails : k.flushFails t s.link = false) :
    Settled (k.round t s.link).1 (s.offers ++ s.offer t k) (placeAfter (k.round t s.link).2) := by
  have hquiet (hk : k.unflushed s.offers = false) (hq : k.quiet t s.offers = true) :=
    h.quiet (t := t) hk (Bool.and_eq_true _ _ ▸ hq).1 (s.offers ++ s.offer t k)
      (placeAfter (k.round t s.link).2)
  cases k with
  | head loop =>
    rcases hputs with hflushes | hq
    · exact h.head loop hflushes
    · have howes : (!loop.owes s.offers) = true := (Bool.and_eq_true _ _ ▸ hq).2
      exact hquiet (Bool.not_eq_true' _ ▸ howes) hq
  | reading | failing | close | closing => exact hquiet rfl rfl
  | writing loop k => exact .flush (fun _ => rfl) tryWrite_ok hfails
  | flushing k => exact .flush (fun _ => rfl) tryWrite_ok hfails
  | handshake side k =>
    cases k with
    | call =>
      rcases hputs with hflushes | hq
      · have hresponse : (s.link.ssl.doHandshake t.ssl).2 = .wantWrite := of_decide_eq_true hflushes
        rw [Place.round, Side.round_eq, handshakeRound]
        simp only [hresponse]
        exact .of_unflushed rfl
      · exact hquiet rfl hq
    | reading => exact hquiet rfl rfl
    | writing k =>
      rw [Place.round, Side.round_eq, handshakeRound]
      rw [Resume.call_call]
      exact .flush (fun _ => rfl) tryWriteRound_ok hfails

end

/-! ## Whole runs -/

def Slot.place : Slot → Option Place
  | .running _ k => some k
  | _ => none

namespace Session

variable {s s' : Session} {l : StreamLabel} {half other : Half} {call : Call} {k : Place}

/-- The place of the call of a whole stream. -/
def place (s : Session) : Option Place := s.reader.place.or s.writer.place

theorem place_eq_none {slot : Slot} (h : slot.isRunning = false) : slot.place = none := by
  cases slot with
  | running => cases h
  | idle | ended => rfl

theorem place_eq (h : ∀ other, other ≠ half → (s.slot other).isRunning = false) :
    s.place = (s.slot half).place := by
  cases half with
  | read =>
    have hwriter := place_eq_none (h .write nofun)
    rw [slot] at hwriter
    rw [place, hwriter, Option.or_none]
    rfl
  | write =>
    have hreader := place_eq_none (h .read nofun)
    rw [slot] at hreader
    rw [place, hreader, Option.none_or]
    rfl

theorem eq_of_running (h : ∀ other, other ≠ half → (s.slot other).isRunning = false) (a b : Half)
    (ha : (s.slot a).isRunning = true) (hb : (s.slot b).isRunning = true) : a = b := by
  have hhalf (c : Half) (hc : (s.slot c).isRunning = true) : c = half := by
    refine Decidable.byContradiction fun hne => ?_
    rw [h c hne] at hc
    cases hc
  rw [hhalf a ha, hhalf b hb]

/-- A whole stream has one call at a time, and is settled. -/
structure Flushed (s : Session) : Prop where
  one : s.link.sockets.isWhole = true → ∀ a b, (s.slot a).isRunning = true →
    (s.slot b).isRunning = true → a = b
  settled : s.link.sockets.isWhole = true → Settled s.link s.offers s.place

theorem Flushed.not_running (h : s.Flushed) (hwhole : s.link.sockets.isWhole = true)
    (hk : s.slot half = .running call k) (hne : other ≠ half) :
    (s.slot other).isRunning = false := by
  refine Bool.eq_false_iff.mpr fun hrunning => hne (h.one hwhole _ _ hrunning ?_)
  rw [hk]
  rfl

theorem Flushed.place_running (h : s.Flushed) (hwhole : s.link.sockets.isWhole = true)
    (hk : s.slot half = .running call k) : s.place = some k := by
  rw [place_eq fun other => h.not_running hwhole hk, hk]
  rfl

theorem Flushed.round (h : s.Flushed) (hk : s.slot half = .running call k)
    (hkeeps : s.keepsUp (.round half t) = true) :
    ((s.record t k (k.round t s.link)).advance half call (k.round t s.link).2).Flushed := by
  have hwhole : ((s.record t k (k.round t s.link)).advance half call (k.round t s.link).2
      ).link.sockets.isWhole = s.link.sockets.isWhole := by
    rw [link_advance]
    exact Place.round_isWhole t s.link k
  have hothers (hw : s.link.sockets.isWhole = true) (other : Half) (hne : other ≠ half) :
      (((s.record t k (k.round t s.link)).advance half call (k.round t s.link).2).slot other
        ).isRunning = false := by
    rw [slot_advance, if_neg hne]
    exact h.not_running hw hk hne
  constructor
  · intro hw
    exact eq_of_running (hothers (hwhole ▸ hw))
  · intro hw
    rw [hwhole] at hw
    have hsettled := h.settled hw
    rw [h.place_running hw hk] at hsettled
    have hplace : ((s.record t k (k.round t s.link)).advance half call (k.round t s.link).2).place =
        placeAfter (k.round t s.link).2 := by
      rw [place_eq (hothers hw), slot_advance, if_pos rfl]
      cases (k.round t s.link).2 <;> rfl
    simp only [keepsUp, hk, Bool.and_eq_true, Bool.or_eq_true, Bool.not_eq_true'] at hkeeps
    rw [link_advance, offers_advance, hplace]
    exact hsettled.round hkeeps.1 hkeeps.2

theorem outgoing_release (bio : ApplicationBio) (l : Lease) :
    (bio.release l).outgoing = bio.outgoing := by
  cases l with
  | none => rfl
  | some lease => exact ApplicationBio.outgoing_leaveCallback

/-- A call is dropped that has nothing to flush. -/
theorem Flushed.drop (h : s.Flushed) (hk : s.slot half = .running call k)
    (hkeeps : s.keepsUp (.drop half d) = true) : (s.dropCall half k d).Flushed := by
  have hothers (hw : s.link.sockets.isWhole = true) (other : Half) (hne : other ≠ half) :
      ((s.dropCall half k d).slot other).isRunning = false := by
    rw [slot_dropCall, if_neg hne]
    exact h.not_running hw hk hne
  constructor
  · intro hw
    rw [link_dropCall, Place.drop_isWhole] at hw
    exact eq_of_running (hothers hw)
  · intro hw
    rw [link_dropCall, Place.drop_isWhole] at hw
    have hsettled := h.settled hw
    rw [h.place_running hw hk] at hsettled
    have hflushed : k.unflushed s.offers = false := by simpa [keepsUp, hk] using hkeeps
    intro _
    exact (congrArg Bio.len (outgoing_release s.link.ssl.bio k.holds)).trans (hsettled hflushed)

/-- A call starts in a whole stream that is ready. -/
theorem Flushed.start (h : s.Flushed) (hstart : s.canStart call = true) :
    (s.begin call).Flushed := by
  have hidle (hw : s.link.sockets.isWhole = true) (half : Half) :
      (s.slot half).isRunning = false := by
    simp only [canStart, hw, if_true, Bool.and_eq_true, Bool.not_eq_true'] at hstart
    cases half with
    | read => exact hstart.2.1
    | write => exact hstart.2.2
  have hslot (hw : s.link.sockets.isWhole = true) (other : Half) (hne : other ≠ call.half) :
      ((s.begin call).slot other).isRunning = false := by
    rw [slot_begin, if_neg hne]
    exact hidle hw other
  constructor
  · intro hw
    rw [link_begin] at hw
    exact eq_of_running (hslot hw)
  · intro hw
    rw [link_begin] at hw
    have hsettled := h.settled hw
    rw [place_eq fun other (_ : other ≠ .read) => hidle hw other,
      place_eq_none (hidle hw .read)] at hsettled
    rw [link_begin]
    exact fun _ => hsettled rfl

theorem Flushed.next (h : s.Flushed) (hkeeps : s.keepsUp l = true) (hs : Steps s l s') :
    s'.Flushed := by
  cases hs with
  | start hstart => exact h.start hstart
  | round hk => exact h.round hk hkeeps
  | drop hk => exact h.drop hk hkeeps
  | split hreader hwriter hsockets =>
    have hshared := isWhole_split hsockets
    constructor
    · intro hwhole
      cases hshared.symm.trans hwhole
    · intro hwhole
      cases hshared.symm.trans hwhole

theorem flushed_new (size : Nat) (isServer : Bool) (socket : Nat) :
    (Session.new size isServer socket).Flushed where
  one := by
    intro _ half _ hhalf
    cases half <;> cases hhalf
  settled _ _ := rfl

/-- **Flushed at every read.** In a run in which OpenSSL and the calls keep up with the
output, the outgoing buffer of a whole stream is empty whenever its socket is read. -/
theorem outgoing_empty_of_reads {size socket : Nat} {isServer : Bool}
    (h : (streaming size isServer socket).Reaches (fun s l => s.keepsUp l = true) s)
    (hwhole : s.link.sockets.isWhole = true) (hread : s.readsSocket half = true) :
    s.outgoing.len = 0 := by
  have hinv : s.Flushed :=
    h.invariant (P := Flushed) (flushed_new size isServer socket)
      fun _ _ _ hinv hkeeps hs => hinv.next hkeeps (steps_of_next hs)
  unfold readsSocket at hread
  split at hread
  · next hk =>
    have hsettled := hinv.settled hwhole
    rw [hinv.place_running hwhole hk] at hsettled
    exact hsettled (Place.flushed_of_readsSocket hread)
  · cases hread

end Session

/-- The client sends one byte of its hello. -/
def sendHello (puts : List UInt8) (error : Int) : List StreamLabel :=
  [.start (.handshake .client),
    .round .read (asked (-1) error puts), .round .read still, .round .read still,
    .round .read (wrote 1), .round .read still]

/-- OpenSSL is asked again, and then the socket is read. -/
def awaitReply (puts : List UInt8) : List StreamLabel :=
  [.round .read (asked (-1) sslErrorWantRead puts), .round .read still]

theorem outgoing_empty_of_reads_hello :
    ∃ s, (streaming 64 false 3).Reaches (fun s l => s.keepsUp l = true) s ∧
      s.link.sockets.isWhole = true ∧ s.readsSocket .read = true ∧ s.outgoing.len = 0 := by
  have hrun : (((streaming 64 false 3).restrict Session.keepsUp).run (streaming 64 false 3).start
      (sendHello [7] sslErrorWantRead ++ awaitReply [])).any
        (fun s => s.link.sockets.isWhole && s.readsSocket .read) = true := by
    decide +kernel
  obtain ⟨s, hs, htest⟩ := System.exists_restrict_run hrun
  obtain ⟨hwhole, hread⟩ := Bool.and_eq_true _ _ ▸ htest
  exact ⟨s, hs, hwhole, hread, Session.outgoing_empty_of_reads hs hwhole hread⟩

/-- **A flight larger than the buffer.** The first byte fills the buffer and
is written. The second call of OpenSSL puts the second byte there, and now
that all is in the buffer it waits for the peer; so does the stream, with the
byte still in the buffer. -/
theorem exists_reads_unflushed :
    ∃ s, (streaming 1 false 3).Reaches (fun s l => s.putsOutput l = true) s ∧
      s.link.sockets.isWhole = true ∧ s.readsSocket .read = true ∧ s.outgoing.len = 1 := by
  have hrun : (((streaming 1 false 3).restrict Session.putsOutput).run (streaming 1 false 3).start
      (sendHello [7, 8] sslErrorWantWrite ++ awaitReply [8])).any
        (fun s => s.link.sockets.isWhole && s.readsSocket .read && s.outgoing.len == 1) = true := by
    decide +kernel
  obtain ⟨s, hs, htest⟩ := System.exists_restrict_run hrun
  simp only [Bool.and_eq_true, beq_iff_eq] at htest
  exact ⟨s, hs, htest.1.1, htest.1.2, htest.2⟩

end Kimojio.Tls
