import Kimojio.Tls.Stream

/-!
# Kimojio.Tls.Delivery

What a `write` or `writev` of a TLS stream has done when it returns `Ok`.

OpenSSL takes over the plaintext piece by piece, and puts the ciphertext into
the outgoing buffer; from there both halves of a stream send it, whenever
OpenSSL asks for room. Only one half at a time has a lease on the buffer, so
that the bytes go out once and in order (`Sent`); and the loop of
`write_internal` offers the rest of its slice until it is taken (`Remains`).
-/

namespace Kimojio.Tls

/-! ## The outgoing buffer -/

namespace Bio

variable {bio : Bio}

theorem length_queue : bio.queue.length = bio.len := by
  simp only [queue, List.length_drop, len]

theorem queue_put (bytes : List UInt8) :
    (bio.put bytes).queue = bio.queue ++ bytes.take bio.room := by
  simp only [queue, put]
  rw [List.drop_append_of_le_length bio.taken_le]

/-- What was sent, before and after OpenSSL puts more bytes behind it. -/
theorem sent_put (bytes : List UInt8) :
    (bio.put bytes).written.take (bio.put bytes).taken = bio.written.take bio.taken := by
  simp only [put]
  rw [List.take_append_of_le_length bio.taken_le]

theorem sent_take (n : Nat) :
    (bio.take n).written.take (bio.take n).taken =
      bio.written.take bio.taken ++ bio.queue.take n := by
  simp only [take, queue]
  rw [List.take_add, ← length_queue, queue, ← List.take_eq_take_min]

end Bio

/-- The leases `l` and `m` of the two halves: both are guarded, and they are
not in the same direction. -/
structure Exclusive (bio : ApplicationBio) (l m : Lease) : Prop where
  left : ∀ {d len}, l = some (d, len) → bio.inCallback d = true
  right : ∀ {d len}, m = some (d, len) → bio.inCallback d = true
  ne : ∀ {d n n'}, l = some (d, n) → m ≠ some (d, n')

theorem Exclusive.symm (h : Exclusive bio l m) : Exclusive bio m l :=
  ⟨h.right, h.left, fun hm hl => h.ne hl hm⟩

section

variable {t : TlsAnswer} {asked : Option Answer} {bio bio' : ApplicationBio} {l l' m : Lease}
  {leased sent : List UInt8}

theorem Exclusive.mono (h : Exclusive bio l m)
    (hbio : ∀ d, bio'.inCallback d = bio.inCallback d) : Exclusive bio' l m where
  left hl := (hbio _).trans (h.left hl)
  right hm := (hbio _).trans (h.right hm)
  ne := h.ne

theorem Exclusive.leave (h : Exclusive bio (some (d, len)) m)
    (hbio : ∀ d', bio'.inCallback d' = if d' = d then false else bio.inCallback d') :
    Exclusive bio' none m where
  left := nofun
  right := by
    intro d' len' hm
    rw [hbio, if_neg]
    · exact h.right hm
    · intro hd
      cases hd
      exact h.ne rfl hm
  ne := nofun

theorem Exclusive.effect (h : Exclusive bio l m) (he : Effect t asked bio l bio' l') :
    Exclusive bio' l' m := by
  cases he with
  | keep | hold => exact h
  | ask a =>
    refine h.mono fun d => ?_
    cases d <;> rfl
  | enter hfree hlen =>
    constructor
    · intro d n hl
      cases hl
      rw [ApplicationBio.inCallback_setCallback, if_pos rfl]
    · intro d n hm
      rw [ApplicationBio.inCallback_setCallback]
      split
      · rfl
      · exact h.right hm
    · intro d n n' hl hm
      cases hl
      rw [h.right hm] at hfree
      cases hfree
  | leave => exact h.leave fun _ => ApplicationBio.inCallback_setCallback
  | commit | consume => exact h.leave fun d => by cases d <;> rfl

/-- The bytes `leased` under a lease of length `len`. -/
structure Covers (bio : ApplicationBio) (leased : List UInt8) (len : Nat) : Prop where
  eq : leased = bio.outgoing.queue.take len
  le : len ≤ bio.outgoing.len

/-- **What has gone out**: the bytes that were taken out of the buffer, in
their order. A lease covers the bytes that follow them. -/
structure Sent (bio : ApplicationBio) (l m : Lease) (leased sent : List UInt8) : Prop extends
    Exclusive bio l m where
  sent_eq : sent = bio.outgoing.written.take bio.outgoing.taken
  covers : ∀ {len}, l = some (.read, len) → Covers bio leased len
  covers' : ∀ {len}, m = some (.read, len) → Covers bio leased len

theorem Sent.symm (h : Sent bio l m leased sent) : Sent bio m l leased sent :=
  ⟨h.toExclusive.symm, h.sent_eq, h.covers', h.covers⟩

/-- OpenSSL puts more bytes behind the leased ones. -/
theorem Covers.put (h : Covers bio leased len) {a : Answer}
    (hbio : bio'.outgoing = bio.outgoing.put a.puts) : Covers bio' leased len := by
  have hle : len ≤ bio.outgoing.queue.length := by
    rw [Bio.length_queue]
    exact h.le
  constructor
  · rw [hbio, Bio.queue_put, List.take_append_of_le_length hle]
    exact h.eq
  · rw [hbio, ← Bio.length_queue, Bio.queue_put, List.length_append]
    omega

theorem Covers.mono (h : Covers bio leased len) (hbio : bio'.outgoing = bio.outgoing) :
    Covers bio' leased len := by
  obtain ⟨heq, hle⟩ := h
  rw [← hbio] at heq hle
  exact ⟨heq, hle⟩

theorem TlsAnswer.amount_le (t : TlsAnswer) (len : Nat) : t.amount len ≤ len := by
  unfold amount
  split
  · exact Nat.min_le_right _ _
  · exact Nat.zero_le len

/-- The outgoing buffer and the lease on it stay as they are. -/
theorem Sent.mono (h : Sent bio l m leased sent) (hbio : bio'.outgoing = bio.outgoing)
    (hexclusive : Exclusive bio' l' m)
    (hlease : ∀ {len}, l' = some (.read, len) → l = some (.read, len)) :
    Sent bio' l' m leased sent where
  toExclusive := hexclusive
  sent_eq := by
    rw [hbio]
    exact h.sent_eq
  covers hl := (h.covers (hlease hl)).mono hbio
  covers' hm := (h.covers' hm).mono hbio

theorem sentBy_none : sentBy t leased none = [] := rfl

theorem sentBy_still (h : t.still d len) : sentBy t leased (some (d, len)) = [] := by
  cases d with
  | read =>
    simp only [TlsAnswer.still] at h
    simp only [sentBy, h, List.take_zero]
  | write => rfl

theorem Sent.ask (h : Sent bio none m leased sent) {a : Answer}
    (hbio : bio'.outgoing = bio.outgoing.put a.puts) (hexclusive : Exclusive bio' none m) :
    Sent bio' none m leased sent where
  toExclusive := hexclusive
  sent_eq := by
    rw [hbio, Bio.sent_put]
    exact h.sent_eq
  covers := nofun
  covers' hm := (h.covers' hm).put hbio

theorem Sent.enter (h : Sent bio none m leased sent) (hbio : bio'.outgoing = bio.outgoing)
    (hexclusive : Exclusive bio' (some (.read, len)) m) (hlen : len ≤ bio.outgoing.len) :
    Sent bio' (some (.read, len)) m (bio'.outgoing.queue.take len) sent where
  toExclusive := hexclusive
  sent_eq := by
    rw [hbio]
    exact h.sent_eq
  covers hl := by
    cases hl
    exact ⟨rfl, hbio ▸ hlen⟩
  covers' hm := absurd hm (hexclusive.ne rfl)

/-- The first bytes under the lease go out. -/
theorem Sent.consume (h : Sent bio (some (.read, len)) m leased sent) (hn : n ≤ len)
    (hbio : bio'.outgoing = bio.outgoing.take n) (hexclusive : Exclusive bio' none m) :
    Sent bio' none m leased (sent ++ leased.take n) where
  toExclusive := hexclusive
  sent_eq := by
    rw [hbio, Bio.sent_take, (h.covers rfl).eq, List.take_take, Nat.min_eq_left hn, h.sent_eq]
  covers := nofun
  covers' hm := absurd hm (h.ne rfl)

theorem Sent.effect (h : Sent bio l m leased sent) (he : Effect t asked bio l bio' l') :
    Sent bio' l' m (leasedAfter bio' leased l l') (sent ++ sentBy t leased l) := by
  have hexclusive := h.toExclusive.effect he
  cases he with
  | keep =>
    rw [sentBy_none, List.append_nil]
    exact h
  | ask a =>
    rw [sentBy_none, List.append_nil]
    exact h.ask rfl hexclusive
  | @enter _ len d hfree hlen =>
    rw [sentBy_none, List.append_nil]
    cases d with
    | read => exact h.enter rfl hexclusive hlen
    | write => exact h.mono rfl hexclusive nofun
  | hold hstill =>
    rw [sentBy_still hstill, List.append_nil]
    exact h
  | leave hstill =>
    rw [sentBy_still hstill, List.append_nil]
    exact h.mono ApplicationBio.outgoing_leaveCallback hexclusive nofun
  | @commit _ len =>
    show Sent _ none m leased (sent ++ [])
    rw [List.append_nil]
    exact h.mono rfl hexclusive nofun
  | consume => exact h.consume (t.amount_le _) rfl hexclusive

end

/-- A lease is dropped, and nothing was sent under it. -/
theorem Sent.release (h : Sent bio l m leased sent) {d : Nat} (hquiet : d = 0) :
    Sent (bio.release l) none m leased (sent ++ sentBy (dropAnswer d) leased l) := by
  have hleave {d : ApplicationBioDirection} {len : Nat}
      (h : Sent bio (some (d, len)) m leased sent) :
      Sent (bio.leaveCallback d) none m leased sent :=
    h.mono ApplicationBio.outgoing_leaveCallback
      (h.toExclusive.leave fun _ => ApplicationBio.inCallback_setCallback) nofun
  obtain _ | ⟨_ | _, len⟩ := l
  · simpa [sentBy, ApplicationBio.release] using h
  · have hsent : sentBy (dropAnswer d) leased (some (.read, len)) = [] := by
      simp [sentBy, TlsAnswer.amount, dropAnswer, hquiet]
    rw [hsent, List.append_nil]
    exact hleave h
  · simpa [sentBy, ApplicationBio.release] using hleave h

/-! ## Both halves -/

def Half.other : Half → Half
  | .read => .write
  | .write => .read

theorem Half.other_ne (half : Half) : half.other ≠ half := by
  cases half <;> nofun

def Slot.holds : Slot → Lease
  | .running _ k => k.holds
  | _ => none

theorem holds_of_not_running {slot : Slot} (h : slot.isRunning = false) : slot.holds = none := by
  cases slot with
  | running call k => cases h
  | idle | ended => rfl

/-- No dropped socket write had written anything. -/
def StreamLabel.quiet : StreamLabel → Bool
  | .drop _ wrote => wrote = 0
  | _ => true

namespace Session

variable {s s' : Session} {l : StreamLabel} {half : Half} {call : Call} {k : Place}

/-- What has gone out, seen from one half. -/
def Sending (s : Session) (half : Half) : Prop :=
  Sent s.link.ssl.bio (s.slot half).holds (s.slot half.other).holds s.leased s.sent

theorem Sending.other (h : s.Sending half) (half' : Half) : s.Sending half' := by
  cases half <;> cases half'
  · exact h
  · exact h.symm
  · exact h.symm
  · exact h

theorem holds_slotAfter (r : Resume Place Outcome) :
    (slotAfter call r).holds = leaseAfter Place.holds r := by
  cases r <;> rfl

theorem Sending.round (h : s.Sending half) (t : LinkAnswer) (hk : s.slot half = .running call k) :
    ((s.record t k (k.round t s.link)).advance half call (k.round t s.link).2).Sending half := by
  unfold Sending at h ⊢
  rw [hk] at h
  rw [slot_advance, if_pos rfl, slot_advance, if_neg half.other_ne, holds_slotAfter, link_advance,
    leased_advance, sent_advance]
  exact h.effect (k.round_effect t s.link)

theorem Sending.drop (h : s.Sending half) (hquiet : d = 0)
    (hk : s.slot half = .running call k) : (s.dropCall half k d).Sending half := by
  unfold Sending at h ⊢
  rw [hk] at h
  rw [slot_dropCall, if_pos rfl, slot_dropCall, if_neg half.other_ne, link_dropCall,
    leased_dropCall]
  exact h.release hquiet

theorem holds_place (call : Call) : call.place.holds = none := by
  cases call <;> rfl

theorem Sending.begin (h : s.Sending call.half) (hidle : (s.slot call.half).isRunning = false) :
    (s.begin call).Sending call.half := by
  unfold Sending at h ⊢
  rw [slot_begin, if_pos rfl, slot_begin, if_neg call.half.other_ne, link_begin, leased_begin,
    sent_begin]
  rw [show (s.slot call.half).holds = none from holds_of_not_running hidle] at h
  show Sent _ call.place.holds _ _ _
  rw [holds_place]
  exact h

end Session

/-! ## The slices -/

/-- A call of `SSL_write` that was not accepted is repeated with the same
slice. -/
def Retries : List Offer → Prop
  | o :: o' :: os => (o.amount = 0 → o'.slice = o.slice) ∧ Retries (o' :: os)
  | _ => True

theorem retries_concat (h : Retries os)
    (hlast : ∀ last, os.getLast? = some last → last.amount = 0 → o.slice = last.slice) :
    Retries (os ++ [o]) := by
  induction os with
  | nil => trivial
  | cons o₁ os ih =>
    cases os with
    | nil => exact ⟨hlast o₁ rfl, trivial⟩
    | cons o₂ os =>
      refine ⟨h.1, ih h.2 fun last hget => hlast last ?_⟩
      exact hget

/-- The loop of `write_internal` has the slice `buffer` left, and then the
buffers `rest`. -/
structure Remains (buffers : List (List UInt8)) (offers : List Offer) (buffer : List UInt8)
    (rest : List (List UInt8)) : Prop where
  accepted : offers.flatMap Offer.accepted ++ (buffer ++ rest.flatten) = buffers.flatten
  retries : Retries offers
  /-- A slice that was not accepted is still there. -/
  last : ∀ o, offers.getLast? = some o → o.amount = 0 → buffer = o.slice ∧ buffer ≠ []

/-- OpenSSL has the buffers. -/
structure Accepted (buffers : List (List UInt8)) (offers : List Offer) : Prop where
  accepted : offers.flatMap Offer.accepted = buffers.flatten
  retries : Retries offers

/-- Where a call is that writes `buffers`. -/
def Writes (buffers : List (List UInt8)) (offers : List Offer) : Place → Prop
  | .head (.write buffer rest) | .reading (.write buffer rest) _ | .writing (.write buffer rest) _
  | .failing _ (.write buffer rest) _ => Remains buffers offers buffer rest
  | .flushing _ => Accepted buffers offers
  | .close _ cause | .closing cause => ∀ n, cause ≠ .ok n
  | _ => False

section

variable {buffers : List (List UInt8)} {offers : List Offer} {buffer : List UInt8}
  {rest : List (List UInt8)} {t : LinkAnswer} {s : Session}

theorem Remains.offer (h : Remains buffers offers buffer rest) (hne : buffer ≠ []) :
    Remains buffers (offers ++ [⟨buffer, n⟩]) (buffer.drop n) rest := by
  constructor
  · rw [List.flatMap_append, ← h.accepted]
    simp only [List.flatMap_cons, List.flatMap_nil, List.append_nil, Offer.accepted,
      List.append_assoc]
    rw [← List.append_assoc (buffer.take n), List.take_append_drop]
  · exact retries_concat h.retries fun last hlast hzero => (h.last last hlast hzero).1
  · intro o hlast hzero
    rw [List.getLast?_concat] at hlast
    cases hlast
    simp only at hzero
    rw [hzero, List.drop_zero]
    exact ⟨rfl, hne⟩

/-- The slice is used up, and the next buffer is begun. -/
theorem Remains.next (h : Remains buffers offers [] (buffer' :: rest)) :
    Remains buffers offers buffer' rest where
  accepted := by simpa using h.accepted
  retries := h.retries
  last o hlast hzero := absurd rfl (h.last o hlast hzero).2

theorem Remains.done (h : Remains buffers offers [] []) : Accepted buffers offers where
  accepted := by simpa using h.accepted
  retries := h.retries

/-- What is known after a round of a call that writes `buffers`. -/
abbrev WriteEnds (buffers : List (List UInt8)) (offers : List Offer) :
    Link × Resume Place Outcome → Prop :=
  Resume.Ends (fun _ k => Writes buffers offers k) (fun _ k => Writes buffers offers k)
    fun s v => ∀ n, v = .ok n → Accepted buffers offers ∧ s.ssl.bio.outgoing.len = 0

theorem Remains.proceed (h : Remains buffers offers buffer rest) (s : Link) (v : CallEnd) :
    WriteEnds buffers offers (s, (Loop.write buffer rest).proceed v) := by
  cases v with
  | ok => exact h
  | error | panicked => exact nofun

/-- A slice that OpenSSL did not accept is offered again. -/
theorem Remains.again (h : Remains buffers offers buffer rest) (hne : buffer ≠ []) :
    Remains buffers (offers ++ [⟨buffer, 0⟩]) buffer rest := by
  have := h.offer (n := 0) hne
  rwa [List.drop_zero] at this

theorem headRound_write (hne : buffer ≠ []) : (Place.head (.write buffer rest)).round t s.link =
      ({ s.link with ssl := (TlsServer.write buffer t.ssl s.link.ssl).1 },
        (Loop.write buffer rest).respond (TlsServer.write buffer t.ssl s.link.ssl).2) := by
  cases buffer with
  | nil => exact absurd rfl hne
  | cons b bs => rfl

theorem Remains.head (h : Remains buffers offers buffer rest) (hne : buffer ≠ []) :
    WriteEnds buffers (offers ++ s.offer t (.head (.write buffer rest)))
      ((Place.head (.write buffer rest)).round t s.link) := by
  have hpos : 0 < buffer.length := List.length_pos_iff.mpr hne
  rw [headRound_write hne, Session.offer]
  split
  · split
    · next amount hresponse =>
      rw [hresponse]
      exact h.offer hne
    · next hresponse =>
      have hagain := h.again hne
      generalize (TlsServer.write buffer t.ssl s.link.ssl).2 = response at hresponse ⊢
      cases response with
      | success amount => exact absurd rfl (hresponse amount)
      | fail | wantRead | wantWrite => exact hagain
      | eof => exact nofun
  · -- the slice is too long for OpenSSL
    have hfail : (TlsServer.write buffer t.ssl s.link.ssl).2 = .fail (.errno inval) := by
      unfold TlsServer.write TlsServer.transfer
      rw [if_neg (by omega), if_pos (by omega)]
    rw [hfail, List.append_nil]
    exact h

theorem Remains.moves (h : Remains buffers offers buffer rest) (s : Link) (inside : κ → Place)
    (hinside : ∀ k, Writes buffers offers (inside k)) (r : Resume κ CallEnd) :
    WriteEnds buffers offers (s, r.call inside (Loop.write buffer rest).proceed) := by
  cases r with
  | goto k | suspend k => exact hinside k
  | ret v => exact h.proceed s v

theorem Accepted.flush (h : Accepted buffers offers) (t : LinkAnswer) (s : Link)
    (k : Locked TryWrite) : WriteEnds buffers offers ((Place.flushing k).round t s) := by
  have hok := tryWrite_ok (t := t) (s := s) (k := k)
  rw [Place.round]
  generalize tryWrite t s k = r at hok ⊢
  obtain ⟨s', place | place | v⟩ := r
  · exact h
  · exact h
  · cases v with
    | ok => exact fun _ _ => ⟨h, hok rfl⟩
    | error | panicked =>
      intro _ hv
      cases hv

theorem Remains.failing (h : Remains buffers offers buffer rest) (t : LinkAnswer) (s : Link)
    (e : TlsServerError) (half : Half) :
    WriteEnds buffers offers (failingRound t s (.write buffer rest) e half) := by
  cases half with
  | read =>
    rw [failingRound]
    split
    · exact h
    · exact h
    · intro _ hv
      cases hv
  | write =>
    rw [failingRound]
    split
    · intro _ hv
      cases hv
    · exact h
    · intro _ hv
      cases hv

/-- A call that has failed does not return `Ok`. -/
theorem writeEnds_close (h : ∀ n, cause ≠ .ok n) (t : LinkAnswer) (s : Link) (half : Half) :
    WriteEnds buffers offers (closeRound t s half cause) := by
  unfold closeRound
  split
  · split
    · exact h
    · exact nofun
  · exact h
  · exact nofun

theorem Writes.round (h : Writes buffers offers k) :
    WriteEnds buffers (offers ++ s.offer t k) (k.round t s.link) := by
  cases k with
  | head loop =>
    cases loop with
    | write buffer rest =>
      cases buffer with
      | nil =>
        rw [show s.offer t (.head (.write [] rest)) = [] from rfl, List.append_nil]
        cases rest with
        | nil => exact Remains.done h
        | cons buffer rest => exact Remains.next h
      | cons b bs => exact Remains.head h (List.cons_ne_nil b bs)
    | tryRead | read | shutdown => exact h.elim
  | reading loop k =>
    rw [show s.offer t (.reading loop k) = [] from rfl, List.append_nil]
    cases loop with
    | write buffer rest => exact Remains.moves h _ (.reading _) (fun _ => h) _
    | tryRead | read | shutdown => exact h.elim
  | writing loop k =>
    rw [show s.offer t (.writing loop k) = [] from rfl, List.append_nil]
    cases loop with
    | write buffer rest => exact Remains.moves h _ (.writing _) (fun _ => h) _
    | tryRead | read | shutdown => exact h.elim
  | failing half loop e =>
    rw [show s.offer t (.failing half loop e) = [] from rfl, List.append_nil]
    cases loop with
    | write buffer rest => exact Remains.failing h t s.link e half
    | tryRead | read | shutdown => exact h.elim
  | flushing k =>
    rw [show s.offer t (.flushing k) = [] from rfl, List.append_nil]
    exact Accepted.flush h t s.link k
  | close half cause =>
    rw [show s.offer t (.close half cause) = [] from rfl, List.append_nil]
    exact writeEnds_close h t s.link half
  | closing cause =>
    rw [show s.offer t (.closing cause) = [] from rfl, List.append_nil, Place.round, closingRound]
    split
    · exact h
    · intro _ hv
      cases hv
    · exact fun n hn => absurd hn (h n)
  | handshake side k => exact h.elim

end

/-! ## Whole runs -/

namespace Session

variable {s s' : Session} {l : StreamLabel} {half : Half} {call : Call} {k : Place}
  {buffers : List (List UInt8)}

/-- The read half does not call `SSL_write`. -/
theorem offer_of_read (h : k.Of .read) (t : LinkAnswer) : s.offer t k = [] := by
  unfold offer
  split
  · cases h _ rfl
  · rfl

/-- What is known of a stream at any time. -/
structure Delivers (s : Session) : Prop where
  sending : s.Sending .write
  places : ∀ {half call k}, s.slot half = .running call k → k.Of half
  writing : ∀ {call k buffers}, s.writer = .running call k → call.buffers = some buffers →
    Writes buffers s.offers k

theorem Delivers.places_round (h : s.Delivers) (t : LinkAnswer) (hk : s.slot half = .running call k)
    (hk' : ((s.record t k (k.round t s.link)).advance half call (k.round t s.link).2).slot half' =
      .running call' k') : k'.Of half' := by
  rw [slot_advance] at hk'
  split at hk'
  · next heq =>
    subst heq
    exact (h.places hk).round (slotAfter_running hk').2
  · exact h.places hk'

theorem Delivers.writeEnds (h : s.Delivers) (t : LinkAnswer) (hk : s.writer = .running call k)
    (hbuffers : call.buffers = some buffers) :
    WriteEnds buffers (s.offers ++ s.offer t k) (k.round t s.link) :=
  (h.writing hk hbuffers).round

theorem Delivers.writing_round (h : s.Delivers) (t : LinkAnswer)
    (hk : s.slot half = .running call k)
    (hk' : ((s.record t k (k.round t s.link)).advance half call (k.round t s.link).2).slot .write =
      .running call' k') (hbuffers : call'.buffers = some buffers) :
    Writes buffers (s.offers ++ s.offer t k) k' := by
  rw [slot_advance] at hk'
  split at hk'
  · next heq =>
    subst heq
    obtain ⟨rfl, hplace⟩ := slotAfter_running hk'
    have hends := h.writeEnds t hk hbuffers
    generalize k.round t s.link = r at hends hplace
    obtain ⟨link, place | place | v⟩ := r
    · cases hplace
      exact hends
    · cases hplace
      exact hends
    · cases hplace
  · next hne =>
    cases half with
    | write => exact absurd rfl hne
    | read =>
      rw [offer_of_read (h.places hk), List.append_nil]
      exact h.writing hk' hbuffers

theorem writes_place (hbuffers : call.buffers = some buffers) : Writes buffers [] call.place := by
  cases call with
  | write | writev =>
    cases hbuffers
    exact ⟨by simp, trivial, nofun⟩
  | handshake | tryRead | read | shutdown | close => cases hbuffers

theorem Delivers.begin (h : s.Delivers) (hidle : (s.slot call.half).isRunning = false) :
    (s.begin call).Delivers where
  sending := ((h.sending.other call.half).begin hidle).other .write
  places := by
    intro half call' k hk
    rw [slot_begin] at hk
    split at hk
    · next heq =>
      cases hk
      rw [heq]
      exact call.place_of
    · exact h.places hk
  writing := by
    intro call' k buffers hk hbuffers
    replace hk : (s.begin call).slot .write = .running call' k := hk
    rw [slot_begin] at hk
    rw [offers_begin]
    split at hk
    · cases hk
      rw [hbuffers]
      exact writes_place hbuffers
    · next hne =>
      have hnone : call.buffers = none := by
        cases call <;> first | rfl | exact absurd rfl hne
      rw [hnone]
      exact h.writing hk hbuffers

theorem Delivers.drop (h : s.Delivers) (hquiet : d = 0) (hk : s.slot half = .running call k) :
    (s.dropCall half k d).Delivers where
  sending := ((h.sending.other half).drop hquiet hk).other .write
  places := by
    intro half' call' k' hk'
    rw [slot_dropCall] at hk'
    split at hk'
    · cases hk'
    · exact h.places hk'
  writing := by
    intro call' k' buffers hk' hbuffers
    replace hk' : (s.dropCall half k d).slot .write = .running call' k' := hk'
    rw [slot_dropCall] at hk'
    split at hk'
    · cases hk'
    · rw [offers_dropCall]
      exact h.writing hk' hbuffers

theorem Delivers.next (h : s.Delivers) (hquiet : l.quiet = true) (hs : Steps s l s') :
    s'.Delivers := by
  cases hs with
  | start hstart =>
    simp only [canStart, Bool.and_eq_true, Bool.not_eq_true'] at hstart
    exact h.begin hstart.1.2
  | @round half call k t hk =>
    refine ⟨((h.sending.other half).round t hk).other .write, h.places_round t hk, ?_⟩
    intro call' k' buffers hk' hbuffers
    rw [offers_advance]
    exact h.writing_round t hk hk' hbuffers
  | drop hk => exact h.drop (of_decide_eq_true hquiet) hk
  | split => exact ⟨h.sending, h.places, h.writing⟩

theorem delivers_new (size : Nat) (isServer : Bool) (socket : Nat) :
    (Session.new size isServer socket).Delivers where
  sending := ⟨⟨nofun, nofun, nofun⟩, rfl, nofun, nofun⟩
  places := by
    intro half _ _ hk
    cases half <;> cases hk
  writing := nofun

/-- A buffer that is empty was sent as a whole. -/
theorem Sending.sent_all (h : s.Sending half) (hempty : s.outgoing.len = 0) :
    s.sent = s.outgoing.written := by
  rw [h.sent_eq, List.take_of_length_le]
  exact Nat.sub_eq_zero_iff_le.mp hempty

/-- **`write` and `writev`.** On a whole stream or on its write half, with
anything going on in the read half: when the call returns `Ok`, OpenSSL has
accepted the buffers, a slice that it did not accept was offered again, and all
bytes that OpenSSL has put into the outgoing buffer were sent in their order. -/
theorem write_delivers {size socket : Nat} {isServer : Bool}
    (h : (streaming size isServer socket).Reaches (fun _ l => l.quiet = true) s) {t : LinkAnswer}
    (hs : (streaming size isServer socket).next s (.round .write t) = some s')
    (hbuffers : call.buffers = some buffers) {n : Nat} (hend : s'.writer = .ended call (.ok n)) :
    s'.offers.flatMap Offer.accepted = buffers.flatten ∧ Retries s'.offers ∧
      s'.sent = s'.outgoing.written ∧ s'.outgoing.len = 0 := by
  have hinv : s.Delivers :=
    h.invariant (P := Delivers) (delivers_new size isServer socket)
      fun _ _ _ hinv hquiet hs => hinv.next hquiet (steps_of_next hs)
  have hsteps : Steps s (.round .write t) s' := steps_of_next hs
  have hinv' := hinv.next rfl hsteps
  cases hsteps with
  | @round _ call' k _ hk =>
    replace hend : Session.slot _ .write = .ended call (.ok n) := hend
    rw [slot_advance, if_pos rfl] at hend
    obtain ⟨rfl, hret⟩ := slotAfter_ended hend
    have hends := hinv.writeEnds t hk hbuffers
    rw [← Prod.eta (k.round t s.link), hret] at hends
    obtain ⟨haccepted, hempty⟩ := hends n rfl
    refine ⟨?_, ?_, hinv'.sending.sent_all ?_, ?_⟩
    · rw [offers_advance]
      exact haccepted.accepted
    · rw [offers_advance]
      exact haccepted.retries
    · rw [outgoing, link_advance]
      exact hempty
    · rw [outgoing, link_advance]
      exact hempty

end Session

/-- The write half of a server writes two buffers and an empty one. OpenSSL
takes the first in two pieces, with a wait for room between them, in which the
read half makes it produce another byte. -/
def twoPieces : List StreamLabel :=
  [.split 5, .start (.writev [[1, 2], [], [3]]), .round .write still,
    .round .write (asked 1 0 [10]), .round .write (asked (-1) sslErrorWantWrite [11]),
    .round .write still, .round .write still, .round .write still, .round .write still,
    .start (.tryRead 4), .round .read (asked (-1) sslErrorWantRead [12]), .round .read still,
    .round .read still, .round .read still, .round .write (wrote 1), .round .write still,
    .round .write (wrote 1), .round .write still, .round .write (wrote 1), .round .write still,
    .round .write (asked 1 0 []), .round .write still, .round .write still,
    .round .write (asked 1 0 [13]), .round .write still, .round .write still, .round .write still,
    .round .write still, .round .write (wrote 1)]

theorem write_delivers_pieces :
    ∃ s s', (streaming 64 true 3).Reaches (fun _ l => l.quiet = true) s ∧
      (streaming 64 true 3).next s (.round .write still) = some s' ∧
      s'.writer = .ended (.writev [[1, 2], [], [3]]) (.ok 0) ∧
      s'.offers.flatMap Offer.accepted = [1, 2, 3] ∧ Retries s'.offers ∧
      s'.sent = s'.outgoing.written ∧ s'.outgoing.len = 0 := by
  have hrun : (((streaming 64 true 3).restrict fun _ l => l.quiet).run (streaming 64 true 3).start
      twoPieces).any (fun s => (s.next (.round .write still)).any fun s' =>
        s'.writer = .ended (.writev [[1, 2], [], [3]]) (.ok 0)) = true := by
    decide +kernel
  obtain ⟨s, hs, hnext⟩ := System.exists_restrict_run hrun
  obtain ⟨s', hs', hend⟩ := (Option.any_eq_true _ _).mp hnext
  replace hend := of_decide_eq_true hend
  have hbuffers : (Call.writev [[1, 2], [], [3]]).buffers = some [[1, 2], [], [3]] := rfl
  exact ⟨s, s', hs, hs', hend, Session.write_delivers hs hs' hbuffers hend⟩

end Kimojio.Tls
