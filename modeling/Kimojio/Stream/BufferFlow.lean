import Kimojio.Stream.BufferPipe

/-!
# Kimojio.Stream.BufferFlow

A `BufferStream` is one queue of bytes, for every interleaving of its calls.

The bytes that have been delivered, and then those in the ring buffer, are
the bytes that have been appended. What each call has copied is read off the
record: a `write` that returns has appended its whole buffer, and a `read` has
filled its own.
-/

namespace Kimojio.Stream

open Sync

/-! ## First in, first out -/

/-- The bytes that call `i` has copied. -/
def bytesOf (i : Nat) (log : List (Nat × UInt8)) : List UInt8 :=
  (log.filter (·.1 = i)).map Prod.snd

theorem bytesOf_append (i j : Nat) (log : List (Nat × UInt8)) (bytes : List UInt8) :
    bytesOf j (log ++ bytes.map (i, ·)) = bytesOf j log ++ if i = j then bytes else [] := by
  unfold bytesOf
  rw [List.filter_append, List.map_append, List.filter_map]
  split
  · next heq =>
    subst heq
    simp [Function.comp_def]
  · next hne => simp [Function.comp_def, hne]

/-- **First in, first out**: what was delivered and what is buffered is what
was appended, and while the stream is open its events are what the ring buffer
says. -/
structure Flow (t : Traffic) : Prop where
  ring : t.stream.state.Ring
  fifo : t.delivered.map Prod.snd ++ t.stream.state.contents = t.appended.map Prod.snd
  unlocked : t.stream.lock.unlocked.state = true
  available : t.stream.closed = false →
    (t.stream.available.state = true ↔ 0 < t.stream.state.amount)
  notFull : t.stream.closed = false → (t.stream.notFull.state = true ↔ t.stream.state.amount < 1024)

namespace Flow

variable {t t' : Traffic} {i len n : Nat} {bytes : List UInt8}

theorem same (h : Flow t) (hs : Same t t') : Flow t' where
  ring := hs.state ▸ h.ring
  fifo := by
    rw [hs.delivered, hs.state, hs.appended]
    exact h.fifo
  unlocked := hs.unlocked.trans h.unlocked
  available := fun hopen => by
    rw [hs.available, hs.state]
    exact h.available (hs.closed.symm.trans hopen)
  notFull := fun hopen => by
    rw [hs.notFull, hs.state]
    exact h.notFull (hs.closed.symm.trans hopen)

/-- A settled stream is full exactly when there is no room. -/
theorem of_settled (hring : t.stream.state.Ring) (hsettled : Settled t)
    (hfifo : t.delivered.map Prod.snd ++ t.stream.state.contents = t.appended.map Prod.snd) :
    Flow t where
  ring := hring
  fifo := hfifo
  unlocked := hsettled.unlocked
  available := fun _ => hsettled.available
  notFull := fun _ => by
    have := hring.amount_le
    rw [hsettled.notFull, hring.length]
    omega

theorem took (h : Flow t) (ht : Took i len t bytes t') : Flow t' := by
  obtain ⟨hring, hcontents, -⟩ := h.ring.take len
  refine of_settled (ht.state ▸ hring) ht.settled ?_
  rw [ht.delivered, ht.state, ht.appended, ← h.fifo, hcontents, ht.out]
  simp [Function.comp_def]

theorem gave (h : Flow t) (hg : Gave i bytes t n t') : Flow t' := by
  obtain ⟨hring, hcontents, -⟩ := h.ring.put bytes
  refine of_settled (hg.state ▸ hring) hg.settled ?_
  rw [hg.delivered, hg.state, hg.appended, hcontents, hg.amount, ← List.append_assoc, h.fifo]
  simp [Function.comp_def]

end Flow

/-! ## One poll -/

/-- Nobody but call `i` has copied anything, and nobody has closed the
stream. -/
structure Only (i : Nat) (t t' : Traffic) : Prop where
  closed : t'.stream.closed = t.stream.closed
  delivered : ∀ j, j ≠ i → bytesOf j t'.delivered = bytesOf j t.delivered
  appended : ∀ j, j ≠ i → bytesOf j t'.appended = bytesOf j t.appended

/-- What call `i` has copied so far. -/
def Place.Carries (i : Nat) (op : Op) (t : Traffic) : Place → Prop
  | .tryRead len _ => op = .tryRead len ∧ bytesOf i t.delivered = []
  | .read len filled _ => op = .read len ∧ bytesOf i t.delivered = filled
  | .write rest _ => op = .write (bytesOf i t.appended ++ rest)

/-- What call `i` has copied when it returns. -/
def CallEnd.Did (i : Nat) (t : Traffic) : Op → CallEnd → Prop
  | .tryRead len, .amount n => (bytesOf i t.delivered).length = n ∧ n ≤ len
  | .read len, .done => (bytesOf i t.delivered).length = len
  | .write buffer, .done => bytesOf i t.appended = buffer
  | _, .failed _ => True
  | _, _ => False

/-- Call `i` under way, in a poll that has found the stream as `t₀`. -/
structure Under (i : Nat) (op : Op) (t₀ t : Traffic) (k : Place) : Prop where
  flow : Flow t
  only : Only i t₀ t
  carries : k.Carries i op t
  valid : k.Valid

section

variable {t₀ t t' : Traffic} {i len n : Nat} {bytes : List UInt8} {op : Op} {k k' : Place}

theorem Only.refl (i : Nat) (t : Traffic) : Only i t t := ⟨rfl, fun _ _ => rfl, fun _ _ => rfl⟩

theorem Only.same (h : Only i t₀ t) (hs : Same t t') : Only i t₀ t' :=
  ⟨hs.closed.trans h.closed, fun j hj => hs.delivered ▸ h.delivered j hj,
    fun j hj => hs.appended ▸ h.appended j hj⟩

theorem Only.took (h : Only i t₀ t) (ht : Took i len t bytes t') : Only i t₀ t' where
  closed := ht.closed.trans h.closed
  delivered := fun j hj => by
    rw [ht.delivered, bytesOf_append, if_neg (Ne.symm hj), List.append_nil]
    exact h.delivered j hj
  appended := fun j hj => ht.appended ▸ h.appended j hj

theorem Only.gave (h : Only i t₀ t) (hg : Gave i bytes t n t') : Only i t₀ t' where
  closed := hg.closed.trans h.closed
  delivered := fun j hj => hg.delivered ▸ h.delivered j hj
  appended := fun j hj => by
    rw [hg.appended, bytesOf_append, if_neg (Ne.symm hj), List.append_nil]
    exact h.appended j hj

theorem Took.bytesOf_delivered (ht : Took i len t bytes t') :
    bytesOf i t'.delivered = bytesOf i t.delivered ++ bytes := by
  rw [ht.delivered, bytesOf_append, if_pos rfl]

theorem Gave.bytesOf_appended (hg : Gave i bytes t n t') :
    bytesOf i t'.appended = bytesOf i t.appended ++ bytes.take n := by
  rw [hg.appended, bytesOf_append, if_pos rfl]

/-- The same call, with the same bytes copied. -/
theorem Place.Carries.continues (h : k.Carries i op t) (hk : k.Continues k')
    (hs : Same t t') : k'.Carries i op t' := by
  cases hk with
  | tryRead | read => exact ⟨h.1, hs.delivered ▸ h.2⟩
  | write =>
    show op = .write (bytesOf i t'.appended ++ _)
    rw [hs.appended]
    exact h

theorem Under.goes (h : Under i op t₀ t k) (hgoes : Goes i t t' k k') (hvalid : k'.Valid) :
    Under i op t₀ t' k' := by
  obtain ⟨hflow, honly, hcarries, -⟩ := h
  cases hgoes with
  | same hs hk => exact ⟨hflow.same hs, honly.same hs, hcarries.continues hk hs, hvalid⟩
  | take ht _ =>
    refine ⟨hflow.took ht, honly.took ht, ⟨hcarries.1, ?_⟩, hvalid⟩
    rw [ht.bytesOf_delivered, hcarries.2]
  | @give rest n hg =>
    refine ⟨hflow.gave hg, honly.gave hg, ?_, hvalid⟩
    have hop : op = .write (bytesOf i t.appended ++ rest) := hcarries
    show op = .write (bytesOf i t'.appended ++ rest.drop n)
    rw [hg.bytesOf_appended, List.append_assoc, List.take_append_drop, hop]

theorem Under.ends (h : Under i op t₀ t k) (hends : Ends i t t' k r) :
    Flow t' ∧ Only i t₀ t' ∧ r.Did i t' op := by
  obtain ⟨hflow, honly, hcarries, -⟩ := h
  cases hends with
  | failed hs =>
    refine ⟨hflow.same hs, honly.same hs, ?_⟩
    cases op <;> trivial
  | amount ht =>
    obtain ⟨rfl, hnone⟩ := hcarries
    refine ⟨hflow.took ht, honly.took ht, ?_, ?_⟩
    · rw [ht.bytesOf_delivered, hnone, List.nil_append]
    · rw [ht.out]
      exact BufferStreamState.length_take_le _ _
  | empty ht =>
    refine ⟨hflow.took ht, honly.took ht, ?_⟩
    cases op <;> trivial
  | filled hs hlen =>
    obtain ⟨rfl, hfilled⟩ := hcarries
    refine ⟨hflow.same hs, honly.same hs, ?_⟩
    show (bytesOf i t'.delivered).length = _
    rw [hs.delivered, hfilled, hlen]
  | written hs =>
    have hop : op = .write (bytesOf i t.appended ++ []) := hcarries
    subst hop
    refine ⟨hflow.same hs, honly.same hs, ?_⟩
    show bytesOf i t'.appended = bytesOf i t.appended ++ []
    rw [hs.appended, List.append_nil]

/-- **One poll** of a call. -/
theorem call_polled (hflow : Flow t₀) (hcarries : k.Carries i op t₀) (hvalid : k.Valid)
    (hr : resume (callRound deadline aborted i) rounds t₀ k = some r) :
    Polled (fun t' k' => Under i op t₀ t' k' ∧ ∃ event, k'.event = some event ∧ event ≠ .unlocked)
      (fun t' r => Flow t' ∧ Only i t₀ t' ∧ r.Did i t' op) r := by
  have hstart : Under i op t₀ t₀ k := ⟨hflow, .refl i t₀, hcarries, hvalid⟩
  refine resume_rule (fun round t k (h : Under i op t₀ t k) => ?_) hstart hr
  refine (callRound_ends h.flow.unlocked h.valid).imp (fun t' k' hk => ?_) (fun t' k' hk => ?_)
    fun t' r hends => ?_
  · exact h.goes hk.1 hk.2
  · obtain ⟨hs, hcontinues, hvalid', event, hevent, hunset⟩ := hk
    refine ⟨⟨h.flow.same hs, h.only.same hs, h.carries.continues hcontinues hs, hvalid'⟩,
      event, hevent, ?_⟩
    rintro rfl
    -- the lock is free between any two rounds
    have hfree : t.isSet .unlocked = true := h.flow.unlocked
    rw [hunset] at hfree
    cases hfree
  · exact h.ends hends

end

/-! ## Every run -/

namespace Piping

/-- What is known of call `i`. -/
def CallOk (t : Traffic) (i : Nat) (call : Call) : Prop :=
  match call.status with
  | .running k => k.Carries i call.op t ∧ k.Valid
  | .ended r => r.Did i t call.op
  | .dropped => True

structure Inv (s : Piping) : Prop where
  flow : Flow s.traffic
  calls : ∀ (i : Nat) (call : Call), s.calls[i]? = some call → CallOk s.traffic i call
  unborn : ∀ i, s.calls.length ≤ i →
    bytesOf i s.traffic.delivered = [] ∧ bytesOf i s.traffic.appended = []

variable {s s' : Piping}

/-- What is known of a call depends on the bytes that it has copied only. -/
theorem CallOk.of_bytesOf (h : CallOk t i call)
    (hdelivered : bytesOf i t'.delivered = bytesOf i t.delivered)
    (happended : bytesOf i t'.appended = bytesOf i t.appended) : CallOk t' i call := by
  obtain ⟨op, deadline, status⟩ := call
  cases status with
  | dropped => trivial
  | ended r =>
    unfold CallOk CallEnd.Did at h ⊢
    rwa [hdelivered, happended]
  | running k =>
    unfold CallOk Place.Carries at h ⊢
    rwa [hdelivered, happended]

theorem Inv.start : Inv piping.start where
  flow :=
    { ring := .new
      fifo := rfl
      unlocked := rfl
      available := fun _ => by decide
      notFull := fun _ => by decide }
  calls := fun i call hcall => by cases hcall
  unborn := fun _ _ => ⟨rfl, rfl⟩

theorem Inv.withTraffic (h : s.Inv) (hflow : Flow t)
    (hdelivered : t.delivered = s.traffic.delivered) (happended : t.appended = s.traffic.appended) :
    Inv { s with traffic := t } where
  flow := hflow
  calls := fun i call hcall =>
    (h.calls i call hcall).of_bytesOf (by rw [hdelivered]) (by rw [happended])
  unborn := fun i hi => by
    rw [hdelivered, happended]
    exact h.unborn i hi

/-- One call goes on, and the others stay as they are. -/
theorem Inv.setStatus (h : s.Inv) (hcall : s.calls[i]? = some call) (hflow : Flow t)
    (honly : Only i s.traffic t) (hok : CallOk t i { call with status }) :
    (s.setStatus i call t status).Inv where
  flow := hflow
  calls := by
    intro j other hother
    rcases mem_of_set hother with ⟨rfl, rfl⟩ | ⟨hj, hother⟩
    · exact hok
    · exact (h.calls j other hother).of_bytesOf (honly.delivered j hj) (honly.appended j hj)
  unborn := by
    intro j hj
    obtain ⟨hi, -⟩ := List.getElem?_eq_some_iff.mp hcall
    have hj : s.calls.length ≤ j := by simpa [Piping.setStatus] using hj
    have hne : j ≠ i := by omega
    show bytesOf j t.delivered = [] ∧ bytesOf j t.appended = []
    rw [honly.delivered j hne, honly.appended j hne]
    exact h.unborn j hj

theorem Inv.call (h : s.Inv) (op : Op) (deadline : Bool) :
    Inv { s with calls := s.calls ++ [⟨op, deadline, .running op.start⟩] } where
  flow := h.flow
  calls := by
    intro i call hcall
    rcases mem_of_push hcall with hcall | ⟨rfl, rfl⟩
    · exact h.calls i call hcall
    · have hnew := h.unborn s.calls.length (Nat.le_refl _)
      cases op with
      | tryRead len => exact ⟨⟨rfl, hnew.1⟩, trivial⟩
      | read len => exact ⟨⟨rfl, hnew.1⟩, Nat.zero_le _⟩
      | write buffer =>
        refine ⟨?_, trivial⟩
        show Op.write buffer = .write (bytesOf s.calls.length s.traffic.appended ++ buffer)
        rw [hnew.2, List.nil_append]
  unborn := by
    intro i hi
    rw [List.length_append] at hi
    exact h.unborn i (by omega)

theorem Inv.poll {call : Call} (h : s.Inv) (hcall : s.calls[i]? = some call)
    (hstatus : call.status = .running k)
    (hr : resume (callRound call.deadline aborted i) rounds s.traffic k = some r) :
    match r with
    | (traffic, .inl place) => (s.setStatus i call traffic (.running place)).Inv
    | (traffic, .inr result) => (s.setStatus i call traffic (.ended result)).Inv := by
  have hok := h.calls i call hcall
  unfold CallOk at hok
  rw [hstatus] at hok
  have hpolled := call_polled h.flow hok.1 hok.2 hr
  obtain ⟨t, place | result⟩ := r
  · have hunder := hpolled.1
    exact h.setStatus hcall hunder.flow hunder.only ⟨hunder.carries, hunder.valid⟩
  · exact h.setStatus hcall hpolled.1 hpolled.2.1 hpolled.2.2

/-- **One step** keeps the invariant. -/
theorem Inv.next (h : s.Inv) (hs : s.next l = some s') : s'.Inv := by
  have hclosed : Flow { s.traffic with stream := s.traffic.stream.close } :=
    ⟨h.flow.ring, h.flow.fifo, h.flow.unlocked, nofun, nofun⟩
  cases l with
  | call op deadline =>
    cases hs
    exact h.call op deadline
  | poll i aborted rounds =>
    obtain ⟨call, hcall, hs⟩ := Option.bind_eq_some_iff.mp hs
    split at hs
    · next k hstatus =>
      obtain ⟨r, hr, rfl⟩ := Option.map_eq_some_iff.mp hs
      have hnext := h.poll hcall hstatus hr
      obtain ⟨t, place | result⟩ := r <;> exact hnext
    · cases hs
  | drop i =>
    obtain ⟨call, hcall, hs⟩ := Option.bind_eq_some_iff.mp hs
    split at hs
    · next k hstatus =>
      cases hs
      have hsame := k.drop_same s.traffic
      exact h.setStatus hcall (h.flow.same hsame) ((Only.refl i s.traffic).same hsame) trivial
    · cases hs
  | cancelWait event d =>
    cases hs
    have hsame : Same s.traffic (s.traffic.onEvent (·.cancelWait d) event) :=
      .onEvent (fun e => e.cancelWait_state d) event
    exact h.withTraffic (h.flow.same hsame) hsame.delivered hsame.appended
  | shutdown | close =>
    cases hs
    exact h.withTraffic hclosed rfl rfl

theorem inv_of_reaches (h : piping.Reaches allowed s) : s.Inv :=
  h.invariant (P := Inv) .start fun _ _ _ hinv _ hs => hinv.next hs

end Piping

/-- What is seen of a stream and of the calls on it. -/
structure Flows (s : Piping) : Prop where
  fifo : s.traffic.delivered.map Prod.snd ++ s.traffic.stream.state.contents =
    s.traffic.appended.map Prod.snd
  head_lt : s.traffic.stream.state.head < 1024
  amount_le : s.traffic.stream.state.amount ≤ 1024
  available_iff : s.traffic.stream.closed = false →
    (s.traffic.stream.available.isSet = true ↔ 0 < s.traffic.stream.state.amount)
  notFull_iff : s.traffic.stream.closed = false →
    (s.traffic.stream.notFull.isSet = true ↔ s.traffic.stream.state.amount < 1024)
  written : ∀ (i : Nat) (buffer : List UInt8) (deadline : Bool),
    s.calls[i]? = some ⟨.write buffer, deadline, .ended .done⟩ →
    bytesOf i s.traffic.appended = buffer
  filled : ∀ (i len : Nat) (deadline : Bool),
    s.calls[i]? = some ⟨.read len, deadline, .ended .done⟩ →
    (bytesOf i s.traffic.delivered).length = len

/-- **A stream is a queue**, for every interleaving of calls with buffers of
any size. -/
theorem stream_flows (s : Piping) (h : piping.Reaches (fun _ _ => True) s) : Flows s := by
  obtain ⟨hflow, hcalls, -⟩ := Piping.inv_of_reaches h
  exact
    { fifo := hflow.fifo
      head_lt := hflow.ring.head_lt
      amount_le := hflow.ring.amount_le
      available_iff := hflow.available
      notFull_iff := hflow.notFull
      written := fun i _ _ hcall => hcalls i _ hcall
      filled := fun i _ _ hcall => hcalls i _ hcall }

/-- Rounds enough for any of these calls, in which no wait is disturbed. -/
def calm : List Round := List.replicate 9 ⟨true, false, none, false⟩

/-- A `read` waits for a `write`, which appends its three bytes; a `try_read`
gets the last of them. -/
theorem stream_flows_three : ∃ s : Piping, piping.Reaches (fun _ _ => True) s ∧
      s.traffic.appended = [(1, 7), (1, 8), (1, 9)] ∧
      s.traffic.delivered = [(0, 7), (0, 8), (2, 9)] ∧ Flows s := by
  have hrun : (piping.run piping.start
      [.call (.read 2) false, .poll 0 false calm, .call (.write [7, 8, 9]) false,
        .poll 1 false calm, .poll 0 false calm, .call (.tryRead 5) true,
        .poll 2 false calm]).any (fun s =>
          s.traffic.appended = [(1, 7), (1, 8), (1, 9)] ∧
            s.traffic.delivered = [(0, 7), (0, 8), (2, 9)]) = true := by
    decide +kernel
  obtain ⟨s, hreach, hs⟩ := System.exists_run hrun
  have hs := of_decide_eq_true hs
  exact ⟨s, hreach, hs.1, hs.2, stream_flows s hreach⟩

end Kimojio.Stream
