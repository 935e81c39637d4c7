import Kimojio.Stream.BufferFlow

/-!
# Kimojio.Stream.BufferClose

What becomes of the calls on a `BufferStream` that is shut down or closed.

Whether the stream is closed is looked at on entry only, and the events that
the close has set are reset by the reads and writes that are under way. So a
`write` that is suspended goes on to append, a `read` that wants more than is
left waits for it, and the last read leaves the other readers waiting.

Where the stream is closed with no `write` suspended, and read so that none of
this happens (`closesCleanly`), nothing is appended any more and everybody who
waits is woken.
-/

namespace Kimojio.Stream

open Sync

def Place.isWrite : Place → Bool
  | .write _ _ => true
  | _ => false

/-- The bytes that a read still asks for. -/
def Place.room : Place → Nat
  | .tryRead len _ => len
  | .read len filled _ => len - filled.length
  | .write _ _ => 0

/-- A `try_read` takes what there is. A `read` does not wait for more if there
is enough, or nothing at all. -/
def Place.takes (amount : Nat) : Place → Bool
  | .tryRead _ _ => true
  | .read len filled _ => amount = 0 || len - filled.length ≤ amount
  | .write _ _ => true

namespace Call

/-- The event that a call waits for. -/
def event (call : Call) : Option EventName :=
  match call.status with
  | .running k => k.event
  | _ => none

def waits (call : Call) : Bool := call.event.isSome

/-- The call is a suspended `write`. -/
def waitsToWrite (call : Call) : Bool :=
  match call.status with
  | .running k => k.isWrite && k.event.isSome
  | _ => false

end Call

namespace Piping

/-- No other call is suspended. -/
def othersIdle (s : Piping) (i : Nat) : Bool :=
  (List.range s.calls.length).all fun j => j = i || !(s.calls[j]?).any Call.waits

/-- The stream is closed with no `write` suspended. A read of a closed stream
leaves bytes behind, or it is the only one and does not wait for more than
there is. -/
def closesCleanly (s : Piping) : PipeLabel → Bool
  | .poll i _ _ =>
    let amount := s.traffic.stream.state.amount
    !(s.traffic.stream.closed && s.traffic.stream.available.isSet) ||
      (s.calls[i]?).all fun call =>
        match call.status with
        | .running k => k.isWrite || k.room < amount || (s.othersIdle i && k.takes amount)
        | _ => true
  | .shutdown => !s.calls.any Call.waitsToWrite
  | .close => !s.calls.any Call.waitsToWrite
  | _ => true

end Piping

/-! ## One poll of a closed stream -/

/-- A call on a closed stream returns at once, unless it is a read and there
may be bytes. -/
def Place.refused (t : Traffic) : Place → Bool
  | .tryRead _ .enter => t.stream.closed && !t.stream.available.isSet
  | .read _ _ .enter => t.stream.closed && !t.stream.available.isSet
  | .write _ .enter => t.stream.closed
  | _ => false

section

variable {t₀ t t' : Traffic} {i : Nat} {k k' : Place} {deadline aborted : Bool}
  {rounds : List Round} {r : Traffic × (Place ⊕ CallEnd)}

theorem refused_polled (hrefused : k.refused t = true)
    (hr : resume (callRound deadline aborted i) rounds t k = some r) :
    r = (t, .inr (.failed (.error .pipe))) := by
  have hround (round : Round) :
      callRound deadline aborted i round t k = (t, .ret (.failed (.error .pipe))) := by
    unfold Place.refused at hrefused
    split at hrefused
    · simp [callRound, tryReadRound, Resume.call, hrefused]
    · simp [callRound, readRound, hrefused]
    · simp [callRound, writeRound, hrefused]
    · cases hrefused
  cases rounds with
  | nil => cases hr
  | cons round rounds =>
    unfold resume at hr
    rw [hround round] at hr
    cases hr
    rfl

/-- A read that does not wait: the event is set, and there is enough, or
nothing, or nothing more to read. -/
def Place.Fits (t : Traffic) : Place → Prop
  | .tryRead _ _ => t.stream.available.state = true
  | .read len filled _ => filled.length = len ∨ t.stream.available.state = true ∧
        (t.stream.state.amount = 0 ∨ len - filled.length ≤ t.stream.state.amount)
  | .write _ _ => False

theorem Place.fits_of_takes (hset : t.stream.available.state = true) (hread : k.isWrite = false)
    (htakes : k.takes t.stream.state.amount = true) : k.Fits t := by
  cases k with
  | tryRead len k => exact hset
  | read len filled k => exact .inr ⟨hset, by simpa [Place.takes] using htakes⟩
  | write rest k => cases hread

theorem Place.takes_of_room (h : k.room ≤ amount) : k.takes amount = true := by
  cases k with
  | tryRead | write => rfl
  | read len filled k => exact Bool.or_eq_true_iff.mpr (.inr (decide_eq_true h))

theorem Place.Fits.continues (h : k.Fits t) (hk : k.Continues k') (hs : Same t t') :
    k'.Fits t' := by
  cases hk with
  | tryRead => exact hs.available.trans h
  | read =>
    unfold Place.Fits at h ⊢
    rwa [hs.available, hs.state]
  | write => exact h

/-- Whoever would wait finds the event set. -/
theorem Place.Fits.isSet {event : EventName} (h : k.Fits t) (hvalid : k.Valid)
    (hfree : t.stream.lock.unlocked.state = true) (hevent : k.event = some event) :
    t.isSet event = true := by
  have htry {k : TryRead} (havailable : t.stream.available.state = true)
      (hevent : k.event = some event) : t.isSet event = true := by
    cases k with
    | enter => cases hevent
    | wait w =>
      cases hevent
      exact havailable
    | lock w =>
      cases hevent
      exact hfree
  cases k with
  | tryRead len k => exact htry h hevent
  | read len filled k =>
    -- a `read` that has filled its buffer does not wait
    have havailable (hlt : filled.length < len) : t.stream.available.state = true := by
      rcases h with heq | ⟨hset, -⟩
      · omega
      · exact hset
    cases k with
    | enter | head => cases hevent
    | wait w =>
      cases hevent
      exact havailable hvalid.1
    | tryRead k => exact htry (havailable hvalid.1) hevent
  | write rest k => exact h.elim

/-- A read under way on a stream that was found as `t₀`. One that leaves
bytes behind also leaves the event set. -/
structure Drains (leaves : Bool) (t₀ t : Traffic) (k : Place) : Prop where
  flow : Flow t
  valid : k.Valid
  fits : k.Fits t
  closed : t.stream.closed = t₀.stream.closed
  appended : t.appended = t₀.appended
  left : leaves = true → t.stream.available.state = true ∧ k.room < t.stream.state.amount

/-- What a read of a closed stream leaves. -/
structure Drained (leaves : Bool) (t₀ t : Traffic) : Prop where
  closed : t.stream.closed = t₀.stream.closed
  appended : t.appended = t₀.appended
  left : leaves = true → t.stream.available.state = true

variable {leaves : Bool}

theorem Place.Continues.room_eq (h : k.Continues k') : k'.room = k.room := by
  cases h <;> rfl

theorem Took.amount_eq (hflow : Flow t) (ht : Took i len t bytes t') :
    t'.stream.state.amount + bytes.length = t.stream.state.amount := by
  obtain ⟨-, -, hamount, -⟩ := hflow.ring.take len
  rwa [← ht.state, ← ht.out] at hamount

theorem Drains.goes (h : Drains leaves t₀ t k) (hgoes : Goes i t t' k k') (hvalid : k'.Valid) :
    Drains leaves t₀ t' k' := by
  obtain ⟨hflow, hvalid₀, hfits, hclosed, happended, hleft⟩ := h
  cases hgoes with
  | same hs hk =>
    refine ⟨hflow.same hs, hvalid, hfits.continues hk hs, hs.closed.trans hclosed,
      hs.appended.trans happended, fun hleaves => ?_⟩
    rw [hs.available, hs.state, hk.room_eq]
    exact hleft hleaves
  | @take len bytes filled k ht hpos =>
    have hamount := ht.amount_eq hflow
    have hset := ht.settled.available
    have hle : filled.length + bytes.length ≤ len := by
      have : (filled ++ bytes).length ≤ len := hvalid
      rwa [List.length_append] at this
    refine ⟨hflow.took ht, hvalid, ?_, ht.closed.trans hclosed, ht.appended.trans happended,
      fun hleaves => ?_⟩
    · simp only [Place.Fits, hset, List.length_append]
      rcases hfits with heq | ⟨-, hzero | henough⟩ <;> omega
    · have hroom : len - filled.length < t.stream.state.amount := (hleft hleaves).2
      simp only [Place.room, hset, List.length_append]
      omega
  | give hg => exact hfits.elim

theorem Drains.ends (h : Drains leaves t₀ t k) (hends : Ends i t t' k result) :
    Drained leaves t₀ t' := by
  obtain ⟨hflow, hvalid, hfits, hclosed, happended, hleft⟩ := h
  have hsame (hs : Same t t') : Drained leaves t₀ t' :=
    ⟨hs.closed.trans hclosed, hs.appended.trans happended,
      fun hleaves => hs.available.trans (hleft hleaves).1⟩
  have htook {len : Nat} {bytes : List UInt8} (ht : Took i len t bytes t')
      (hlen : bytes.length ≤ k.room) : Drained leaves t₀ t' := by
    refine ⟨ht.closed.trans hclosed, ht.appended.trans happended, fun hleaves => ?_⟩
    have hamount := ht.amount_eq hflow
    have hroom := (hleft hleaves).2
    rw [ht.settled.available]
    omega
  cases hends with
  | failed hs | filled hs | written hs => exact hsame hs
  | amount ht =>
    refine htook ht ?_
    rw [ht.out]
    exact BufferStreamState.length_take_le _ _
  | empty ht => exact htook ht (Nat.zero_le _)

/-- **One poll** of a read that fits: it returns. -/
theorem drains_polled (h : Drains leaves t t k)
    (hr : resume (callRound deadline aborted i) rounds t k = some r) :
    Polled (fun _ _ => False) (fun t' _ => Drained leaves t t') r := by
  refine resume_rule (fun round t' k (h : Drains leaves t t' k) => ?_) h hr
  refine (callRound_ends h.flow.unlocked h.valid).imp (fun t' k' hk => ?_) (fun t' k' hk => ?_)
    fun t' r hends => ?_
  · exact h.goes hk.1 hk.2
  · obtain ⟨hs, hcontinues, hvalid, event, hevent, hunset⟩ := hk
    have hset := (h.fits.continues hcontinues (.refl _)).isSet hvalid h.flow.unlocked hevent
    rw [hunset] at hset
    cases hset
  · exact h.ends hends

end

/-! ## Every run -/

theorem Place.event_of_read {k : Place} {event : EventName} (hread : k.isWrite = false)
    (hevent : k.event = some event) (hlock : event ≠ .unlocked) : event = .available := by
  have htry {k : TryRead} (hevent : k.event = some event) : event = .available := by
    cases k with
    | enter => cases hevent
    | wait w => exact (Option.some.inj hevent).symm
    | lock w => exact absurd (Option.some.inj hevent).symm hlock
  rcases k with ⟨_, k⟩ | ⟨_, _, _ | _ | w | k⟩ | ⟨_, k⟩
  · exact htry hevent
  · cases hevent
  · cases hevent
  · exact (Option.some.inj hevent).symm
  · exact htry hevent
  · cases hread

theorem Op.start_event (op : Op) : op.start.event = none := by
  cases op <;> rfl

/-- A call that has not been polled and would find nothing. -/
theorem Op.refused_start (op : Op) (hclosed : t.stream.closed = true)
    (h : op.start.isWrite = true ∨ t.stream.available.state = false) :
    op.start.refused t = true := by
  cases op with
  | tryRead | read =>
    simpa [Op.start, Place.refused, Place.isWrite, AsyncEvent.isSet, hclosed] using h
  | write buffer => exact hclosed

theorem Call.event_eq {call : Call} {event : EventName} :
    call.event = some event ↔ ∃ k, call.status = .running k ∧ k.event = some event := by
  unfold Call.event
  split
  · next k hk =>
    refine ⟨fun hevent => ⟨k, hk, hevent⟩, fun ⟨k', hk', hevent⟩ => ?_⟩
    rw [hk] at hk'
    cases hk'
    exact hevent
  · next hk => exact ⟨nofun, fun ⟨k, hstatus, _⟩ => absurd hstatus (hk k)⟩

theorem Call.waits_iff {call : Call} :
    call.waits = true ↔ ∃ k event, call.status = .running k ∧ k.event = some event := by
  simp only [Call.waits, Option.isSome_iff_exists, Call.event_eq]
  exact exists_comm

namespace Piping

theorem waits_of_othersIdle {s : Piping} (h : s.othersIdle i = true) (hj : j ≠ i)
    (hother : s.calls[j]? = some other) : other.waits = false := by
  obtain ⟨hlt, -⟩ := List.getElem?_eq_some_iff.mp hother
  have hidle := List.all_eq_true.mp h j (List.mem_range.mpr hlt)
  simpa [hj, hother] using hidle

/-- A call under way has not been polled, or waits; and where the stream is
closed, those who wait are reads, and find the event set. -/
structure Quiet (s : Piping) : Prop where
  poised : ∀ (i : Nat) (call : Call) (k : Place), s.calls[i]? = some call →
    call.status = .running k →
    k = call.op.start ∨ ∃ event, k.event = some event ∧ event ≠ .unlocked
  met : s.traffic.stream.closed = true → ∀ (i : Nat) (call : Call) (k : Place) (event : EventName),
    s.calls[i]? = some call → call.status = .running k → k.event = some event →
    k.isWrite = false ∧ s.traffic.isSet event = true

variable {s s' : Piping} {i : Nat} {call : Call} {k : Place}

theorem Quiet.start : Quiet piping.start :=
  ⟨fun _ _ _ hcall => (by cases hcall), fun _ _ _ _ _ hcall => (by cases hcall)⟩

/-- Who waits for a read event of a closed stream. -/
theorem Quiet.available_of_waits (h : s.Quiet) (hclosed : s.traffic.stream.closed = true)
    (hcall : s.calls[i]? = some call) (hstatus : call.status = .running k)
    (hevent : k.event = some event) : k.isWrite = false ∧ event = .available := by
  obtain ⟨hread, -⟩ := h.met hclosed i call k event hcall hstatus hevent
  rcases h.poised i call k hcall hstatus with rfl | ⟨event', hevent', hlock⟩
  · rw [Op.start_event] at hevent
    cases hevent
  · rw [hevent] at hevent'
    cases hevent'
    exact ⟨hread, Place.event_of_read hread hevent hlock⟩

/-- What is left by the poll of call `i` of a closed stream. -/
structure Undisturbed (s : Piping) (i : Nat) (t : Traffic) : Prop where
  closed : t.stream.closed = true
  appended : t.appended = s.traffic.appended
  others : ∀ (j : Nat) (other : Call), j ≠ i → s.calls[j]? = some other → other.waits = true →
    t.stream.available.state = true

theorem Quiet.available_set (h : s.Quiet) (hclosed : s.traffic.stream.closed = true)
    (hcall : s.calls[i]? = some call) (hwaits : call.waits = true) :
    s.traffic.stream.available.state = true := by
  obtain ⟨k, event, hstatus, hevent⟩ := Call.waits_iff.mp hwaits
  obtain ⟨-, rfl⟩ := h.available_of_waits hclosed hcall hstatus hevent
  exact (h.met hclosed i call k _ hcall hstatus hevent).2

/-- A call that is refused disturbs nobody. -/
theorem Quiet.refused (h : s.Quiet) (hclosed : s.traffic.stream.closed = true)
    (hrefused : k.refused s.traffic = true)
    (hr : resume (callRound call.deadline aborted i) rounds s.traffic k = some r) :
    Polled (fun _ _ => False) (fun t _ => Undisturbed s i t) r := by
  rw [refused_polled hrefused hr]
  exact ⟨hclosed, rfl, fun j other _ hother hwaits => h.available_set hclosed hother hwaits⟩

/-- **One poll** of a closed stream: the call returns, nothing is appended, and
whoever waits finds the event set. -/
theorem Quiet.polled (h : s.Quiet) (hinv : s.Inv)
    (hclosed : s.traffic.stream.closed = true) (hcall : s.calls[i]? = some call)
    (hstatus : call.status = .running k)
    (hclean : s.closesCleanly (.poll i aborted rounds) = true)
    (hr : resume (callRound call.deadline aborted i) rounds s.traffic k = some r) :
    Polled (fun _ _ => False) (fun t _ => Undisturbed s i t) r := by
  have hok : CallOk s.traffic i call := hinv.calls i call hcall
  unfold CallOk at hok
  rw [hstatus] at hok
  have hdrains {leaves : Bool} (hfits : k.Fits s.traffic)
      (hleft : leaves = true → s.traffic.stream.available.state = true ∧
        k.room < s.traffic.stream.state.amount)
      (hothers : leaves = true ∨ s.othersIdle i = true) :
      Polled (fun _ _ => False) (fun t _ => Undisturbed s i t) r := by
    refine (drains_polled ⟨hinv.flow, hok.2, hfits, rfl, rfl, hleft⟩ hr).imp (fun _ _ h => h)
      fun t _ hdrained => ⟨hdrained.closed.trans hclosed, hdrained.appended, ?_⟩
    intro j other hj hother hwaits
    rcases hothers with hleaves | hidle
    · exact hdrained.left hleaves
    · rw [waits_of_othersIdle hidle hj hother] at hwaits
      cases hwaits
  by_cases hset : s.traffic.stream.available.state = true
  · have hkind : k.isWrite = true ∨ k.room < s.traffic.stream.state.amount ∨
        s.othersIdle i = true ∧ k.takes s.traffic.stream.state.amount = true := by
      simpa [closesCleanly, AsyncEvent.isSet, hclosed, hset, hcall, hstatus, or_assoc] using hclean
    by_cases hwrite : k.isWrite = true
    · rcases h.poised i call k hcall hstatus with rfl | ⟨event, hevent, -⟩
      · exact h.refused hclosed (call.op.refused_start hclosed (.inl hwrite)) hr
      · rw [(h.available_of_waits hclosed hcall hstatus hevent).1] at hwrite
        cases hwrite
    · have hread : k.isWrite = false := Bool.eq_false_iff.mpr hwrite
      rcases hkind with hkind | hroom | ⟨hidle, htakes⟩
      · exact absurd hkind hwrite
      · exact hdrains (Place.fits_of_takes hset hread (Place.takes_of_room (Nat.le_of_lt hroom)))
          (fun _ => ⟨hset, hroom⟩) (.inl rfl)
      · exact hdrains (Place.fits_of_takes hset hread htakes)
          (fun hfalse => absurd hfalse Bool.false_ne_true) (.inr hidle)
  · -- nobody waits for an event that is not set, so the call has not been polled
    rcases h.poised i call k hcall hstatus with rfl | ⟨event, hevent, -⟩
    · exact h.refused hclosed (call.op.refused_start hclosed (.inr (Bool.eq_false_iff.mpr hset))) hr
    · have hwaits : call.waits = true := Call.waits_iff.mpr ⟨k, event, hstatus, hevent⟩
      exact absurd (h.available_set hclosed hcall hwaits) hset

/-- One call goes on, and the others stay as they are. -/
theorem Quiet.setStatus (h : s.Quiet)
    (hpoised : ∀ k, status = .running k → ∃ event, k.event = some event ∧ event ≠ .unlocked)
    (hmet : t.stream.closed = true → ∀ (j : Nat) (other : Call) (k : Place) (event : EventName),
      (s.calls.set i { call with status })[j]? = some other → other.status = .running k →
      k.event = some event → k.isWrite = false ∧ t.isSet event = true) :
    (s.setStatus i call t status).Quiet where
  poised := by
    intro j other k hother hstatus
    rcases mem_of_set hother with ⟨rfl, rfl⟩ | ⟨-, hother⟩
    · exact .inr (hpoised k hstatus)
    · exact h.poised j other k hother hstatus
  met := hmet

theorem isSet_same (hs : Same s.traffic t) (event : EventName) :
    t.isSet event = s.traffic.isSet event := by
  cases event with
  | available => exact hs.available
  | notFull => exact hs.notFull
  | unlocked => exact hs.unlocked

theorem Quiet.poll (h : s.Quiet) (hinv : s.Inv) (hcall : s.calls[i]? = some call)
    (hstatus : call.status = .running k)
    (hclean : s.closesCleanly (.poll i aborted rounds) = true)
    (hr : resume (callRound call.deadline aborted i) rounds s.traffic k = some r) :
    match r with
    | (t, .inl place) => (s.setStatus i call t (.running place)).Quiet
    | (t, .inr result) => (s.setStatus i call t (.ended result)).Quiet := by
  have hok : CallOk s.traffic i call := hinv.calls i call hcall
  unfold CallOk at hok
  rw [hstatus] at hok
  have hpolled := call_polled hinv.flow hok.1 hok.2 hr
  have hquiet (hclosed : s.traffic.stream.closed = true) :=
    h.polled hinv hclosed hcall hstatus hclean hr
  obtain ⟨t, place | result⟩ := r
  · obtain ⟨hunder, event, hevent, hlock⟩ := hpolled
    refine h.setStatus (fun k' hk' => ?_) fun hclosed => ?_
    · cases hk'
      exact ⟨event, hevent, hlock⟩
    · exact (hquiet (hunder.only.closed.symm.trans hclosed)).elim
  · refine h.setStatus nofun fun hclosed j other k' event hother hrunning hevent => ?_
    have hclosed : s.traffic.stream.closed = true := hpolled.2.1.closed.symm.trans hclosed
    rcases mem_of_set hother with ⟨-, rfl⟩ | ⟨hj, hother⟩
    · cases hrunning
    · obtain ⟨hread, rfl⟩ := h.available_of_waits hclosed hother hrunning hevent
      have hwaits : other.waits = true := Call.waits_iff.mpr ⟨k', _, hrunning, hevent⟩
      exact ⟨hread, (hquiet hclosed).others j other hj hother hwaits⟩

theorem Quiet.close (h : s.Quiet) (hinv : s.Inv)
    (hclean : (!s.calls.any Call.waitsToWrite) = true) :
    Quiet { s with traffic := { s.traffic with stream := s.traffic.stream.close } } where
  poised := h.poised
  met := by
    intro _ j other k event hother hrunning hevent
    constructor
    · have hnone : s.calls.any Call.waitsToWrite = false := by simpa using hclean
      have hwrite : other.waitsToWrite ≠ true :=
        List.any_eq_false.mp hnone other (List.mem_of_getElem? hother)
      rw [Call.waitsToWrite, hrunning] at hwrite
      simpa [hevent] using hwrite
    · cases event with
      | available | notFull =>
        simp [Traffic.isSet, BufferStream.close, AsyncEvent.isSet, AsyncEvent.set]
      | unlocked => exact hinv.flow.unlocked

/-- **One step** keeps the invariant, and appends nothing to a closed stream. -/
theorem Quiet.next (h : s.Quiet) (hinv : s.Inv) (hclean : s.closesCleanly l = true)
    (hs : s.next l = some s') :
    s'.Quiet ∧ (s.traffic.stream.closed = true →
      s'.traffic.stream.closed = true ∧ s'.traffic.appended = s.traffic.appended) := by
  cases l with
  | call op deadline =>
    cases hs
    refine ⟨⟨fun j other k hother hrunning => ?_,
      fun hclosed j other k event hother hrunning hevent => ?_⟩, fun hclosed => ⟨hclosed, rfl⟩⟩
    · rcases mem_of_push hother with hother | ⟨-, rfl⟩
      · exact h.poised j other k hother hrunning
      · cases hrunning
        exact .inl rfl
    · rcases mem_of_push hother with hother | ⟨-, rfl⟩
      · exact h.met hclosed j other k event hother hrunning hevent
      · cases hrunning
        rw [Op.start_event] at hevent
        cases hevent
  | poll i aborted rounds =>
    obtain ⟨call, hcall, hs⟩ := Option.bind_eq_some_iff.mp hs
    split at hs
    · next k hstatus =>
      obtain ⟨r, hr, rfl⟩ := Option.map_eq_some_iff.mp hs
      have hnext := h.poll hinv hcall hstatus hclean hr
      have hpolled (hclosed : s.traffic.stream.closed = true) :=
        h.polled hinv hclosed hcall hstatus hclean hr
      obtain ⟨t, place | result⟩ := r
      · exact ⟨hnext, fun hclosed => (hpolled hclosed).elim⟩
      · exact ⟨hnext, fun hclosed => ⟨(hpolled hclosed).closed, (hpolled hclosed).appended⟩⟩
    · cases hs
  | drop i =>
    obtain ⟨call, hcall, hs⟩ := Option.bind_eq_some_iff.mp hs
    split at hs
    · next k hstatus =>
      cases hs
      have hsame := k.drop_same s.traffic
      refine ⟨h.setStatus nofun fun hclosed j other k' event hother hrunning hevent => ?_,
        fun hclosed => ⟨hsame.closed.trans hclosed, hsame.appended⟩⟩
      rcases mem_of_set hother with ⟨-, rfl⟩ | ⟨hj, hother⟩
      · cases hrunning
      · rw [isSet_same hsame]
        exact h.met (hsame.closed.symm.trans hclosed) j other k' event hother hrunning hevent
    · cases hs
  | cancelWait event d =>
    cases hs
    have hsame : Same s.traffic (s.traffic.onEvent (·.cancelWait d) event) :=
      .onEvent (fun e => e.cancelWait_state d) event
    refine ⟨⟨h.poised, fun hclosed j other k event' hother hrunning hevent => ?_⟩,
      fun hclosed => ⟨hsame.closed.trans hclosed, hsame.appended⟩⟩
    rw [isSet_same hsame]
    exact h.met (hsame.closed.symm.trans hclosed) j other k event' hother hrunning hevent
  | shutdown | close =>
    cases hs
    exact ⟨h.close hinv hclean, fun _ => ⟨rfl, rfl⟩⟩

theorem quiet_of_reaches (h : piping.Reaches (fun s l => s.closesCleanly l = true) s) :
    s.Quiet := by
  have hboth := h.invariant (P := fun s => s.Inv ∧ s.Quiet) ⟨.start, .start⟩
    fun _ _ _ ⟨hinv, hquiet⟩ hclean hs => ⟨hinv.next hs, (hquiet.next hinv hclean hs).1⟩
  exact hboth.2

end Piping

/-- What holds of a stream that is closed. -/
structure ClosedQuietly (s : Piping) : Prop where
  woken : ∀ (i : Nat) (call : Call) (event : EventName), s.calls[i]? = some call →
    call.event = some event → s.traffic.isSet event = true
  silent : ∀ (l : PipeLabel) (s' : Piping), s.closesCleanly l = true → s.next l = some s' →
    s'.traffic.stream.closed = true ∧ s'.traffic.appended = s.traffic.appended

/-- **A closed stream**, where it is closed and read cleanly: nothing more is
appended, and nobody waits for an event that is not set. -/
theorem closed_quietly (s : Piping) (h : piping.Reaches (fun s l => s.closesCleanly l = true) s)
    (hclosed : s.traffic.stream.closed = true) : ClosedQuietly s := by
  have hquiet := Piping.quiet_of_reaches h
  have hinv := Piping.inv_of_reaches h
  refine ⟨fun i call event hcall hevent => ?_, fun l s' hclean hs => ?_⟩
  · obtain ⟨k, hstatus, hevent⟩ := Call.event_eq.mp hevent
    exact (hquiet.met hclosed i call k event hcall hstatus hevent).2
  · exact (hquiet.next hinv hclean hs).2 hclosed

/-- A `read` waits when the stream is shut down, and takes four of five bytes;
a `try_read` takes the last. -/
theorem closed_quietly_five : ∃ s : Piping, piping.Reaches (fun s l => s.closesCleanly l = true) s ∧
      s.traffic.stream.closed = true ∧
      s.calls.map Call.status = [.ended .done, .ended .done, .ended (.amount 1)] ∧
      ClosedQuietly s := by
  have hrun : ((piping.restrict Piping.closesCleanly).run piping.start
      [.call (.read 4) false, .poll 0 false calm, .call (.write [1, 2, 3, 4, 5]) false,
        .poll 1 false calm, .shutdown, .poll 0 false calm, .call (.tryRead 7) true,
        .poll 2 false calm]).any (fun s =>
          s.traffic.stream.closed = true ∧
            s.calls.map Call.status = [.ended .done, .ended .done, .ended (.amount 1)]) = true := by
    decide +kernel
  obtain ⟨s, hreach, hs⟩ := System.exists_restrict_run hrun
  have hs := of_decide_eq_true hs
  exact ⟨s, hreach, hs.1, hs.2, closed_quietly s hreach hs.1⟩

/-- A `read` that asks for more bytes than are left waits for ever after the
close. And a `write` that was suspended appends a byte when the stream is
closed. -/
theorem exists_closed_stuck :
    (∃ s : Piping, piping.Reaches (fun _ _ => True) s ∧ s.traffic.stream.closed = true ∧
      s.calls.map Call.event = [some .available, none] ∧ s.traffic.isSet .available = false) ∧
    ∃ s s' : Piping, piping.Reaches (fun _ _ => True) s ∧ s.traffic.stream.closed = true ∧
      s.next (.poll 0 false (List.replicate 9 ⟨true, false, none, false⟩)) = some s' ∧
      s'.traffic.appended.length = s.traffic.appended.length + 1 := by
  have hread : (piping.run piping.start
      [.call (.read 5) false, .poll 0 false calm, .call (.write [1, 2]) false,
        .poll 1 false calm, .close, .poll 0 false calm]).any (fun s =>
          s.traffic.stream.closed = true ∧ s.calls.map Call.event = [some .available, none] ∧
            s.traffic.isSet .available = false) = true := by
    decide +kernel
  have hwrite : (piping.run piping.start [.call (.write (List.replicate 1025 7)) false,
        .poll 0 false calm, .close, .call (.tryRead 1) false, .poll 1 false calm]).any (fun s =>
          s.traffic.stream.closed = true ∧ (s.next (.poll 0 false calm)).any
            (fun s' => s'.traffic.appended.length = s.traffic.appended.length + 1) = true) =
              true := by
    decide +kernel
  obtain ⟨s, hreach, hs⟩ := System.exists_run hread
  obtain ⟨t, hreach', ht⟩ := System.exists_run hwrite
  have ht := of_decide_eq_true ht
  obtain ⟨t', hnext, happended⟩ := (Option.any_eq_true _ _).mp ht.2
  exact ⟨⟨s, hreach, of_decide_eq_true hs⟩, t, t', hreach', ht.1, hnext,
    of_decide_eq_true happended⟩

end Kimojio.Stream
