import Kimojio.RingBuffer
import Kimojio.Sync.AsyncLock

/-!
# Kimojio.Stream.BufferPipe

`BufferStream`, one direction of a `BufferPipe`: any number of `read`,
`try_read` and `write` calls on it, with buffers of any size.

Every byte that a call copies is recorded together with the call: `appended`
has the bytes that went into the ring buffer, `delivered` those that came out.
A call is dropped wherever it is suspended, or runs into its deadline, or is
canceled; what it has copied by then stays copied.

The lock of the ring buffer is taken and released within one poll, so nobody
ever waits for it.
-/

namespace Kimojio.Stream

open Sync

structure BufferStreamState where
  buffer : List UInt8
  head : Nat
  amount : Nat
  deriving DecidableEq, Repr

namespace BufferStreamState

def new : BufferStreamState := ⟨List.replicate 1024 0, 0, 0⟩

/-- The buffered bytes. -/
def contents (state : BufferStreamState) : List UInt8 :=
  RingBuffer.contents state.buffer state.head state.amount

/-- What `try_read` takes out for a buffer of `len` bytes. -/
def take (len : Nat) (state : BufferStreamState) : BufferStreamState × List UInt8 :=
  let last := min (state.head + state.amount) state.buffer.length
  let amount := min (last - state.head) len
  if amount > 0 then
    ({ state with
        head := (state.head + amount) % state.buffer.length
        amount := state.amount - amount },
      RingBuffer.slice state.buffer state.head amount)
  else (state, [])

/-- What one round of `write` puts in, and how many bytes these are. -/
def put (bytes : List UInt8) (state : BufferStreamState) : BufferStreamState × Nat :=
  let freeHead := (state.head + state.amount) % state.buffer.length
  let freeAmount := state.buffer.length - state.amount
  let freeEnd := min (freeHead + freeAmount) state.buffer.length
  let amount := min bytes.length (freeEnd - freeHead)
  ({ state with
      buffer := RingBuffer.overwrite state.buffer freeHead (bytes.take amount)
      amount := state.amount + amount },
    amount)

end BufferStreamState

structure BufferStream where
  lock : AsyncLock
  state : BufferStreamState
  available : AsyncEvent
  notFull : AsyncEvent
  closed : Bool

namespace BufferStream

def new : BufferStream := ⟨.new, .new, .new, AsyncEvent.new.set, false⟩

def updateEvents (s : BufferStream) : BufferStream :=
  let available := s.state.amount > 0
  let full := s.state.amount = s.state.buffer.length
  { s with
    available := if available then s.available.set else s.available.reset
    notFull := if full then s.notFull.reset else s.notFull.set }

def shutdown (s : BufferStream) : BufferStream :=
  { s with closed := true, available := s.available.set, notFull := s.notFull.set }

def close (s : BufferStream) : BufferStream :=
  { s with closed := true, available := s.available.set, notFull := s.notFull.set }

end BufferStream

/-- The stream with a record of the bytes that each call has copied. -/
structure Traffic where
  stream : BufferStream
  delivered : List (Nat × UInt8)
  appended : List (Nat × UInt8)

namespace Traffic

def withAvailable (t : Traffic) (available : AsyncEvent) : Traffic :=
  { t with stream := { t.stream with available } }

def withNotFull (t : Traffic) (notFull : AsyncEvent) : Traffic :=
  { t with stream := { t.stream with notFull } }

def withUnlocked (t : Traffic) (unlocked : AsyncEvent) : Traffic :=
  { t with stream := { t.stream with lock := ⟨unlocked⟩ } }

/-- Call `i` holds the lock, and takes out what there is for `len` bytes. -/
def readChunk (i len : Nat) (t : Traffic) : Traffic × List UInt8 :=
  let (state, bytes) := t.stream.state.take len
  ({ t with
      stream := { t.stream with state }.updateEvents
      delivered := t.delivered ++ bytes.map (i, ·) },
    bytes)

/-- Call `i` holds the lock, and puts in what there is room for. -/
def writeChunk (i : Nat) (bytes : List UInt8) (t : Traffic) : Traffic × Nat :=
  let (state, amount) := t.stream.state.put bytes
  ({ t with
      stream := { t.stream with state }.updateEvents
      appended := t.appended ++ (bytes.take amount).map (i, ·) },
    amount)

/-- The guard of the lock is dropped. -/
def unlock (t : Traffic) : Traffic :=
  { t with stream := { t.stream with lock := t.stream.lock.dropRef } }

end Traffic

/-! ## The calls -/

inductive StreamError where
  | pipe
  | canceled
  | timedout
  deriving DecidableEq, Repr

/-- How a call fails. -/
inductive Failure where
  | error (error : StreamError)
  | panicked
  deriving DecidableEq, Repr

/-- How a wait fails. -/
def waitFailure : Waited → Option Failure
  | .ok => none
  | .canceled => some (.error .canceled)
  | .timeout => some (.error .timedout)
  | .panicked => some .panicked

/-- The places in `try_read`. -/
inductive TryRead where
  | enter
  | wait (w : WaitFuture)
  | lock (t : TimedWait)
  deriving DecidableEq, Repr

inductive TryReadEnd where
  | ok (bytes : List UInt8)
  | failed (failure : Failure)
  deriving DecidableEq, Repr

/-- The places in `read`. -/
inductive Reading where
  | enter
  | head
  | wait (t : TimedWait)
  | tryRead (k : TryRead)
  deriving DecidableEq, Repr

/-- The places in `write`. -/
inductive Writing where
  | enter
  | head
  | wait (t : TimedWait)
  | lock (w : Option WaitFuture)
  deriving DecidableEq, Repr

/-- A call, where it is: a `try_read` into `len` bytes, a `read` into `len`
bytes of which the first are `filled`, or a `write` that has `rest` to
write. -/
inductive Place where
  | tryRead (len : Nat) (k : TryRead)
  | read (len : Nat) (filled : List UInt8) (k : Reading)
  | write (rest : List UInt8) (k : Writing)
  deriving DecidableEq, Repr

/-- How a call ends: `Ok(amount)` of `try_read`, `Ok(())`, or not at all. -/
inductive CallEnd where
  | amount (n : Nat)
  | done
  | failed (failure : Failure)
  deriving DecidableEq, Repr

section

variable (deadline aborted : Bool) (i : Nat) (round : Round) (t : Traffic)

/-- One round of `try_read` into `len` bytes. -/
def tryReadRound (len : Nat) : TryRead → Traffic × Resume TryRead TryReadEnd
  | .enter =>
    if t.stream.closed && !t.stream.available.isSet then (t, .ret (.failed (.error .pipe)))
    else (t, .goto (.wait (.new true)))
  | .wait w =>
    await aborted t.stream.available w (fun e w => (t.withAvailable e, .suspend (.wait w)))
      (fun e => (t.withAvailable e, .goto (.lock .head)))
      (fun e => (t.withAvailable e, .ret (.failed (.error .canceled))))
      (fun e => (t.withAvailable e, .ret (.failed .panicked)))
  | .lock w =>
    -- `lock_with_deadline`
    match t.stream.lock.unlocked.waitRound deadline aborted round w with
    | (e, .goto w) => (t.withUnlocked e, .goto (.lock w))
    | (e, .suspend w) => (t.withUnlocked e, .suspend (.lock w))
    | (e, .ret r) =>
      match waitFailure r with
      | some failure => (t.withUnlocked e, .ret (.failed failure))
      | none =>
        match (⟨e⟩ : AsyncLock).tryLock with
        | some lock =>
          let (t, bytes) := (t.withUnlocked lock.unlocked).readChunk i len
          (t.unlock, .ret (.ok bytes))
        | none => (t.withUnlocked e, .ret (.failed (.error .timedout)))

/-- One round of `read`. -/
def readRound (len : Nat) (filled : List UInt8) : Reading → Traffic × Resume Place CallEnd
  | .enter =>
    if t.stream.closed && !t.stream.available.isSet then (t, .ret (.failed (.error .pipe)))
    else (t, .goto (.read len filled .head))
  | .head =>
    if filled.length < len then (t, .goto (.read len filled (.wait .head)))
    else (t, .ret .done)
  | .wait w =>
    let (e, r) := t.stream.available.waitRound deadline aborted round w
    (t.withAvailable e, r.call (fun w => .read len filled (.wait w)) fun r =>
      match waitFailure r with
      | some failure => .ret (.failed failure)
      | none => .goto (.read len filled (.tryRead .enter)))
  | .tryRead k =>
    let (t, r) := tryReadRound deadline aborted i round t (len - filled.length) k
    (t, r.call (fun k => .read len filled (.tryRead k)) fun
      | .ok bytes =>
        if bytes.length = 0 then .ret (.failed (.error .pipe))
        else .goto (.read len (filled ++ bytes) .head)
      | .failed failure => .ret (.failed failure))

/-- One round of `write`. -/
def writeRound (rest : List UInt8) : Writing → Traffic × Resume Place CallEnd
  | .enter =>
    if t.stream.closed then (t, .ret (.failed (.error .pipe)))
    else (t, .goto (.write rest .head))
  | .head =>
    if rest.isEmpty then (t, .ret .done) else (t, .goto (.write rest (.wait .head)))
  | .wait w =>
    let (e, r) := t.stream.notFull.waitRound deadline aborted round w
    (t.withNotFull e, r.call (fun w => .write rest (.wait w)) fun r =>
      match waitFailure r with
      | some failure => .ret (.failed failure)
      | none => .goto (.write rest (.lock none)))
  | .lock none =>
    -- the head of the loop of `lock`
    if t.stream.lock.unlocked.isSet then
      let (t, amount) := (t.withUnlocked t.stream.lock.unlocked.reset).writeChunk i rest
      (t.unlock, .goto (.write (rest.drop amount) .head))
    else (t, .goto (.write rest (.lock (some (.new true)))))
  | .lock (some w) =>
    await aborted t.stream.lock.unlocked w
      (fun e w => (t.withUnlocked e, .suspend (.write rest (.lock (some w)))))
      (fun e => (t.withUnlocked e, .goto (.write rest (.lock none))))
      (fun e => (t.withUnlocked e, .ret (.failed (.error .canceled))))
      (fun e => (t.withUnlocked e, .ret (.failed .panicked)))

/-- One round of any call. -/
def callRound : Place → Traffic × Resume Place CallEnd
  | .tryRead len k =>
    let (t, r) := tryReadRound deadline aborted i round t len k
    (t, r.call (.tryRead len) fun
      | .ok bytes => .ret (.amount bytes.length)
      | .failed failure => .ret (.failed failure))
  | .read len filled k => readRound deadline aborted i round t len filled k
  | .write rest k => writeRound deadline aborted i round t rest k

end

/-- What was called. -/
inductive Op where
  | tryRead (len : Nat)
  | read (len : Nat)
  | write (buffer : List UInt8)
  deriving DecidableEq, Repr

def Op.start : Op → Place
  | .tryRead len => .tryRead len .enter
  | .read len => .read len [] .enter
  | .write buffer => .write buffer .enter

/-- A call is under way, has returned, or has been dropped before that. -/
inductive Status where
  | running (place : Place)
  | ended (result : CallEnd)
  | dropped
  deriving DecidableEq, Repr

structure Call where
  op : Op
  deadline : Bool
  status : Status
  deriving DecidableEq, Repr

/-- A stream with all calls on it. -/
structure Piping where
  traffic : Traffic
  calls : List Call

/-- The events of a stream. -/
inductive EventName where
  | available
  | notFull
  | unlocked
  deriving DecidableEq, Repr

inductive PipeLabel where
  | call (op : Op) (deadline : Bool)
  | poll (call : Nat) (aborted : Bool) (rounds : List Round)
  | drop (call : Nat)
  | cancelWait (event : EventName) (waitData : Nat)
  | shutdown
  | close
  deriving DecidableEq, Repr

/-- Changes one event. -/
def Traffic.onEvent (t : Traffic) (f : AsyncEvent → AsyncEvent) : EventName → Traffic
  | .available => t.withAvailable (f t.stream.available)
  | .notFull => t.withNotFull (f t.stream.notFull)
  | .unlocked => t.withUnlocked (f t.stream.lock.unlocked)

def TryRead.drop (t : Traffic) : TryRead → Traffic
  | .enter => t
  | .wait w => t.onEvent w.drop .available
  | .lock w => t.onEvent w.drop .unlocked

/-- Drops a call where it is suspended. -/
def Place.drop (t : Traffic) : Place → Traffic
  | .tryRead _ k => k.drop t
  | .read _ _ (.wait w) => t.onEvent w.drop .available
  | .read _ _ (.tryRead k) => k.drop t
  | .write _ (.wait w) => t.onEvent w.drop .notFull
  | .write _ (.lock (some w)) => t.onEvent w.drop .unlocked
  | _ => t

namespace Piping

def setStatus (s : Piping) (i : Nat) (call : Call) (traffic : Traffic) (status : Status) : Piping :=
  ⟨traffic, s.calls.set i { call with status }⟩

def next (s : Piping) : PipeLabel → Option Piping
  | .call op deadline =>
    some { s with calls := s.calls ++ [⟨op, deadline, .running op.start⟩] }
  | .poll i aborted rounds =>
    (s.calls[i]?).bind fun call =>
      match call.status with
      | .running place =>
        (resume (callRound call.deadline aborted i) rounds s.traffic place).map fun
          | (traffic, .inl place) => s.setStatus i call traffic (.running place)
          | (traffic, .inr result) => s.setStatus i call traffic (.ended result)
      | _ => none
  | .drop i =>
    (s.calls[i]?).bind fun call =>
      match call.status with
      | .running place => some (s.setStatus i call (place.drop s.traffic) .dropped)
      | _ => none
  | .cancelWait event d => some { s with traffic := s.traffic.onEvent (·.cancelWait d) event }
  | .shutdown => some { s with traffic := { s.traffic with stream := s.traffic.stream.shutdown } }
  | .close => some { s with traffic := { s.traffic with stream := s.traffic.stream.close } }

end Piping

/-- A new stream. -/
def piping : System Piping PipeLabel where
  start := ⟨⟨.new, [], []⟩, []⟩
  next := Piping.next

/-! ## The ring buffer -/

namespace BufferStreamState

variable {state : BufferStreamState}

structure Ring (state : BufferStreamState) : Prop where
  length : state.buffer.length = 1024
  head_lt : state.head < 1024
  amount_le : state.amount ≤ 1024

theorem Ring.new : Ring new := ⟨List.length_replicate, by decide, by decide⟩

theorem length_take_le (state : BufferStreamState) (len : Nat) :
    (state.take len).2.length ≤ len := by
  unfold BufferStreamState.take
  dsimp only
  split
  · rw [RingBuffer.slice, List.length_take]
    omega
  · exact Nat.zero_le _

/-- A read takes the oldest bytes. -/
theorem Ring.take (h : state.Ring) (len : Nat) : (state.take len).1.Ring ∧
      state.contents = (state.take len).2 ++ (state.take len).1.contents ∧
      (state.take len).1.amount + (state.take len).2.length = state.amount ∧
      (0 < len → 0 < state.amount → 0 < (state.take len).2.length) := by
  obtain ⟨hlength, hhead, hamount⟩ := h
  unfold BufferStreamState.take
  dsimp only
  generalize hk : min (min (state.head + state.amount) state.buffer.length - state.head) len = k
  split
  · next hpos =>
    have hslice : (RingBuffer.slice state.buffer state.head k).length = k := by
      rw [RingBuffer.slice, List.length_take, List.length_drop]
      omega
    have hwraps : (state.head + k) % state.buffer.length < 1024 := hlength ▸ Nat.mod_lt _ (by omega)
    rw [hslice]
    refine ⟨⟨hlength, hwraps, by dsimp only; omega⟩, ?_, by dsimp only; omega, ?_⟩
    · exact RingBuffer.contents_take (by omega) (by omega) (by omega) (by omega)
    · intro _ _
      exact hpos
  · next hzero =>
    refine ⟨⟨hlength, hhead, hamount⟩, rfl, rfl, ?_⟩
    intro _ _
    omega

/-- A write appends what fits. -/
theorem Ring.put (h : state.Ring) (bytes : List UInt8) : (state.put bytes).1.Ring ∧
      (state.put bytes).1.contents = state.contents ++ bytes.take (state.put bytes).2 ∧
      (state.put bytes).1.amount = state.amount + (state.put bytes).2 := by
  obtain ⟨hlength, hhead, hamount⟩ := h
  have hfree : (state.head + state.amount) % state.buffer.length < state.buffer.length :=
    Nat.mod_lt _ (by omega)
  unfold BufferStreamState.put
  dsimp only
  generalize hn : min bytes.length (min ((state.head + state.amount) % state.buffer.length +
    (state.buffer.length - state.amount)) state.buffer.length -
      (state.head + state.amount) % state.buffer.length) = n
  have htake : (bytes.take n).length = n := by
    rw [List.length_take]
    omega
  refine ⟨⟨?_, hhead, by dsimp only; omega⟩, ?_, rfl⟩
  · exact (RingBuffer.length_overwrite (by omega)).trans hlength
  · have hput : RingBuffer.contents (RingBuffer.overwrite state.buffer
        ((state.head + state.amount) % state.buffer.length) (bytes.take n)) state.head
          (state.amount + (bytes.take n).length) = state.contents ++ bytes.take n :=
      RingBuffer.contents_put (by omega) (by omega) (by omega)
    rwa [htake] at hput

end BufferStreamState

/-! ## What one round does -/

/-- Nothing is done to the stream but that somebody waits, or waits no more. -/
structure Same (t t' : Traffic) : Prop where
  state : t'.stream.state = t.stream.state
  available : t'.stream.available.state = t.stream.available.state
  notFull : t'.stream.notFull.state = t.stream.notFull.state
  unlocked : t'.stream.lock.unlocked.state = t.stream.lock.unlocked.state
  closed : t'.stream.closed = t.stream.closed
  delivered : t'.delivered = t.delivered
  appended : t'.appended = t.appended

/-- The events are what the ring buffer says, and the lock is free. -/
structure Settled (t : Traffic) : Prop where
  available : t.stream.available.state = true ↔ 0 < t.stream.state.amount
  notFull : t.stream.notFull.state = true ↔ t.stream.state.amount ≠ t.stream.state.buffer.length
  unlocked : t.stream.lock.unlocked.state = true

/-- Call `i` takes bytes out. -/
structure Took (i len : Nat) (t : Traffic) (bytes : List UInt8) (t' : Traffic) : Prop where
  out : bytes = (t.stream.state.take len).2
  state : t'.stream.state = (t.stream.state.take len).1
  settled : Settled t'
  closed : t'.stream.closed = t.stream.closed
  delivered : t'.delivered = t.delivered ++ bytes.map (i, ·)
  appended : t'.appended = t.appended

/-- Call `i` puts the first `n` of `bytes` in. -/
structure Gave (i : Nat) (bytes : List UInt8) (t : Traffic) (n : Nat) (t' : Traffic) : Prop where
  amount : n = (t.stream.state.put bytes).2
  state : t'.stream.state = (t.stream.state.put bytes).1
  settled : Settled t'
  closed : t'.stream.closed = t.stream.closed
  delivered : t'.delivered = t.delivered
  appended : t'.appended = t.appended ++ (bytes.take n).map (i, ·)

section

variable {t t' : Traffic} {e : AsyncEvent} {i len : Nat} {bytes : List UInt8}

theorem Same.refl (t : Traffic) : Same t t := ⟨rfl, rfl, rfl, rfl, rfl, rfl, rfl⟩

theorem Same.withAvailable (h : e.state = t.stream.available.state) : Same t (t.withAvailable e) :=
  ⟨rfl, h, rfl, rfl, rfl, rfl, rfl⟩

theorem Same.withNotFull (h : e.state = t.stream.notFull.state) : Same t (t.withNotFull e) :=
  ⟨rfl, rfl, h, rfl, rfl, rfl, rfl⟩

theorem Same.withUnlocked (h : e.state = t.stream.lock.unlocked.state) :
    Same t (t.withUnlocked e) :=
  ⟨rfl, rfl, rfl, h, rfl, rfl, rfl⟩

/-- `update_events`, and the lock is released. -/
theorem settled_unlock {s : BufferStream} :
    Settled (Traffic.unlock ⟨s.updateEvents, delivered, appended⟩) where
  available := by
    show s.updateEvents.available.state = true ↔ 0 < s.state.amount
    simp only [BufferStream.updateEvents]
    split <;> simp_all [AsyncEvent.set, AsyncEvent.reset]
  notFull := by
    show s.updateEvents.notFull.state = true ↔ s.state.amount ≠ s.state.buffer.length
    simp only [BufferStream.updateEvents]
    split <;> simp_all [AsyncEvent.set, AsyncEvent.reset]
  unlocked := by
    show s.updateEvents.lock.unlocked.setWakeOne.state = true
    exact (AsyncEvent.wakeN_spec 1 _).1

end

def TryRead.Valid : TryRead → Prop
  | .enter => True
  | .wait w => w.source = some true
  | .lock w => w.Valid

/-- The waits of a call wait for an event to be set, and a `read` waits only
as long as its buffer is not full. -/
def Place.Valid : Place → Prop
  | .tryRead _ k => k.Valid
  | .read len filled (.wait w) => filled.length < len ∧ w.Valid
  | .read len filled (.tryRead k) => filled.length < len ∧ k.Valid
  | .read len filled _ => filled.length ≤ len
  | .write _ (.wait w) => w.Valid
  | .write _ (.lock (some w)) => w.source = some true
  | .write _ _ => True

def TryRead.event : TryRead → Option EventName
  | .enter => none
  | .wait _ => some .available
  | .lock _ => some .unlocked

/-- The event that a suspended call waits for. -/
def Place.event : Place → Option EventName
  | .tryRead _ k => k.event
  | .read _ _ (.wait _) => some .available
  | .read _ _ (.tryRead k) => k.event
  | .write _ (.wait _) => some .notFull
  | .write _ (.lock (some _)) => some .unlocked
  | _ => none

def Traffic.isSet (t : Traffic) : EventName → Bool
  | .available => t.stream.available.isSet
  | .notFull => t.stream.notFull.isSet
  | .unlocked => t.stream.lock.unlocked.isSet

/-- How a round of `try_read` returns. -/
def TryReadEnd.After (i len : Nat) (t t' : Traffic) : TryReadEnd → Prop
  | .ok bytes => Took i len t bytes t'
  | .failed _ => Same t t'

/-- A call is still the same call. -/
inductive Place.Continues : Place → Place → Prop
  | tryRead : Continues (.tryRead len k) (.tryRead len k')
  | read : Continues (.read len filled k) (.read len filled k')
  | write : Continues (.write rest k) (.write rest k')

/-- How a round goes on. -/
inductive Goes (i : Nat) (t t' : Traffic) : Place → Place → Prop
  | same : Same t t' → k.Continues k' → Goes i t t' k k'
  | take : Took i (len - filled.length) t bytes t' → 0 < bytes.length →
      Goes i t t' (.read len filled (.tryRead k)) (.read len (filled ++ bytes) .head)
  | give : Gave i rest t n t' → Goes i t t' (.write rest (.lock none)) (.write (rest.drop n) .head)

/-- How a call returns. -/
inductive Ends (i : Nat) (t t' : Traffic) : Place → CallEnd → Prop
  | failed {failure : Failure} : Same t t' → Ends i t t' k (.failed failure)
  | amount : Took i len t bytes t' → Ends i t t' (.tryRead len k) (.amount bytes.length)
  | empty : Took i (len - filled.length) t [] t' →
      Ends i t t' (.read len filled (.tryRead k)) (.failed (.error .pipe))
  | filled : Same t t' → filled.length = len → Ends i t t' (.read len filled .head) .done
  | written : Same t t' → Ends i t t' (.write [] .head) .done

section

variable {t : Traffic} {deadline aborted : Bool} {i len : Nat} {round : Round}

/-- What one round of `try_read` does. -/
def TryReadEnds (i len : Nat) (t : Traffic) : Traffic × Resume TryRead TryReadEnd → Prop :=
  Resume.Ends (fun t' k' => Same t t' ∧ k'.Valid)
    (fun t' k' => Same t t' ∧ k'.Valid ∧ k'.event = some .available ∧
      t.stream.available.state = false)
    (fun t' r => r.After i len t t')

/-- **One round** of `try_read`, with the lock free. -/
theorem tryReadRound_ends (hfree : t.stream.lock.unlocked.state = true) (hvalid : k.Valid) :
    TryReadEnds i len t (tryReadRound deadline aborted i round t len k) := by
  cases k with
  | enter =>
    rw [tryReadRound]
    split
    · exact Same.refl t
    · exact ⟨.refl t, rfl⟩
  | wait w =>
    rw [tryReadRound]
    refine await_state hvalid (fun e w he hunset hsource => ?_) (fun e he _ => ?_)
      (fun e he => ?_) fun e he => ?_
    · exact ⟨.withAvailable he, hsource, rfl, hunset⟩
    · exact ⟨.withAvailable he, trivial⟩
    · exact Same.withAvailable he
    · exact Same.withAvailable he
  | lock w =>
    have hkeeps : WaitKeeps t.stream.lock.unlocked
        (t.stream.lock.unlocked.waitRound deadline aborted round w) := waitRound_keeps hvalid
    rw [tryReadRound]
    generalize t.stream.lock.unlocked.waitRound deadline aborted round w = r at hkeeps
    obtain ⟨e, w | w | r⟩ := r
    · exact ⟨.withUnlocked hkeeps.1, hkeeps.2⟩
    · -- the lock is free, so nobody waits for it
      have hunset := hkeeps.2.1
      rw [hfree] at hunset
      cases hunset
    · have hset : e.state = true := hkeeps.1.trans hfree
      have htry : (⟨e⟩ : AsyncLock).tryLock = some ⟨e.reset⟩ := if_pos hset
      dsimp only
      split
      · exact Same.withUnlocked hkeeps.1
      · rw [htry]
        exact ⟨rfl, rfl, settled_unlock, rfl, rfl, rfl⟩

/-- What one round of a call does, with the lock free. -/
def RoundEnds (i : Nat) (t : Traffic) (k : Place) : Traffic × Resume Place CallEnd → Prop :=
  Resume.Ends (fun t' k' => Goes i t t' k k' ∧ k'.Valid)
    (fun t' k' => Same t t' ∧ k.Continues k' ∧ k'.Valid ∧
      ∃ event, k'.event = some event ∧ t.isSet event = false)
    (fun t' r => Ends i t t' k r)

section
variable (hfree : t.stream.lock.unlocked.state = true)
include hfree

/-- A round of a read. -/
theorem readRound_ends (hvalid : (Place.read len filled k).Valid) :
    RoundEnds i t (.read len filled k) (readRound deadline aborted i round t len filled k) := by
  have hsame {t' : Traffic} {k' : Reading} (h : Same t t') :
      Goes i t t' (.read len filled k) (.read len filled k') := .same h .read
  cases k with
  | enter =>
    rw [readRound]
    split
    · exact .failed (.refl t)
    · exact ⟨hsame (.refl t), hvalid⟩
  | head =>
    rw [readRound]
    split
    · next hlt => exact ⟨hsame (.refl t), hlt, trivial⟩
    · next hge => exact .filled (.refl t) (Nat.le_antisymm hvalid (Nat.not_lt.mp hge))
  | wait w =>
    have hkeeps : WaitKeeps t.stream.available
        (t.stream.available.waitRound deadline aborted round w) := waitRound_keeps hvalid.2
    rw [readRound]
    generalize t.stream.available.waitRound deadline aborted round w = r at hkeeps
    obtain ⟨e, r⟩ := r
    refine hkeeps.call (fun w hw => ?_) (fun w hw => ?_) fun r hr => ?_
    · exact ⟨hsame (.withAvailable hw.1), hvalid.1, hw.2⟩
    · exact ⟨.withAvailable hw.1, .read, ⟨hvalid.1, hw.2.2⟩, _, rfl, hw.2.1⟩
    · split
      · exact .failed (.withAvailable hr.1)
      · exact ⟨hsame (.withAvailable hr.1), hvalid.1, trivial⟩
  | tryRead k =>
    have hends : TryReadEnds i (len - filled.length) t
        (tryReadRound deadline aborted i round t (len - filled.length) k) :=
      tryReadRound_ends hfree hvalid.2
    rw [readRound]
    generalize tryReadRound deadline aborted i round t (len - filled.length) k = r at hends
    obtain ⟨t', r⟩ := r
    refine hends.call (fun k' hk => ?_) (fun k' hk => ?_) fun r hr => ?_
    · exact ⟨hsame hk.1, hvalid.1, hk.2⟩
    · exact ⟨hk.1, .read, ⟨hvalid.1, hk.2.1⟩, _, hk.2.2.1, hk.2.2.2⟩
    · cases r with
      | failed failure => exact .failed hr
      | ok bytes =>
        dsimp only
        split
        · next hzero =>
          cases List.eq_nil_of_length_eq_zero hzero
          exact .empty hr
        · next hpos =>
          have hle : bytes.length ≤ len - filled.length := by
            rw [Took.out hr]
            exact BufferStreamState.length_take_le _ _
          refine ⟨.take hr (Nat.pos_of_ne_zero hpos), ?_⟩
          show (filled ++ bytes).length ≤ len
          rw [List.length_append]
          omega

/-- A round of a write. -/
theorem writeRound_ends (hvalid : (Place.write rest k).Valid) :
    RoundEnds i t (.write rest k) (writeRound deadline aborted i round t rest k) := by
  have hsame {t' : Traffic} {k' : Writing} (h : Same t t') :
      Goes i t t' (.write rest k) (.write rest k') := .same h .write
  cases k with
  | enter =>
    rw [writeRound]
    split
    · exact .failed (.refl t)
    · exact ⟨hsame (.refl t), trivial⟩
  | head =>
    rw [writeRound]
    split
    · next hempty =>
      cases List.isEmpty_iff.mp hempty
      exact .written (.refl t)
    · exact ⟨hsame (.refl t), trivial⟩
  | wait w =>
    have hkeeps : WaitKeeps t.stream.notFull
        (t.stream.notFull.waitRound deadline aborted round w) := waitRound_keeps hvalid
    rw [writeRound]
    generalize t.stream.notFull.waitRound deadline aborted round w = r at hkeeps
    obtain ⟨e, r⟩ := r
    refine hkeeps.call (fun w hw => ?_) (fun w hw => ?_) fun r hr => ?_
    · exact ⟨hsame (.withNotFull hw.1), hw.2⟩
    · exact ⟨.withNotFull hw.1, .write, hw.2.2, _, rfl, hw.2.1⟩
    · split
      · exact .failed (.withNotFull hr.1)
      · exact ⟨hsame (.withNotFull hr.1), trivial⟩
  | lock w =>
    cases w with
    | none =>
      rw [writeRound, AsyncEvent.isSet, if_pos hfree]
      exact ⟨.give ⟨rfl, rfl, settled_unlock, rfl, rfl, rfl⟩, trivial⟩
    | some w =>
      rw [writeRound]
      refine await_state hvalid (fun e w he hunset hsource => ?_) (fun e he _ => ?_)
        (fun e he => ?_) fun e he => ?_
      · rw [hfree] at hunset
        cases hunset
      · exact ⟨hsame (.withUnlocked he), trivial⟩
      · exact .failed (.withUnlocked he)
      · exact .failed (.withUnlocked he)

/-- **One round** of a call, with the lock free. -/
theorem callRound_ends (hvalid : k.Valid) :
    RoundEnds i t k (callRound deadline aborted i round t k) := by
  cases k with
  | tryRead len k =>
    have hends : TryReadEnds i len t (tryReadRound deadline aborted i round t len k) :=
      tryReadRound_ends hfree hvalid
    rw [callRound]
    generalize tryReadRound deadline aborted i round t len k = r at hends
    obtain ⟨t', r⟩ := r
    refine hends.call (fun k' hk => ?_) (fun k' hk => ?_) fun r hr => ?_
    · exact ⟨.same hk.1 .tryRead, hk.2⟩
    · exact ⟨hk.1, .tryRead, hk.2.1, _, hk.2.2.1, hk.2.2.2⟩
    · cases r with
      | ok bytes => exact .amount hr
      | failed failure => exact .failed hr
  | read len filled k => exact readRound_ends hfree hvalid
  | write rest k => exact writeRound_ends hfree hvalid

end

end

/-! ## Drops and cancellations -/

theorem Same.onEvent (hf : ∀ e, (f e).state = e.state) (event : EventName) :
    Same t (t.onEvent f event) := by
  cases event with
  | available => exact .withAvailable (hf _)
  | notFull => exact .withNotFull (hf _)
  | unlocked => exact .withUnlocked (hf _)

theorem Place.drop_same (t : Traffic) (k : Place) : Same t (k.drop t) := by
  have hwait (w : WaitFuture) (event : EventName) : Same t (t.onEvent w.drop event) :=
    .onEvent (drop_state w) event
  have htimed (w : TimedWait) (event : EventName) : Same t (t.onEvent w.drop event) :=
    .onEvent w.drop_state event
  have htry (k : TryRead) : Same t (k.drop t) := by
    cases k with
    | enter => exact .refl t
    | wait w => exact hwait w .available
    | lock w => exact htimed w .unlocked
  rcases k with ⟨_, k⟩ | ⟨_, _, _ | _ | w | k⟩ | ⟨_, _ | _ | w | _ | w⟩
  · exact htry k
  · exact .refl t
  · exact .refl t
  · exact htimed w .available
  · exact htry k
  · exact .refl t
  · exact .refl t
  · exact htimed w .notFull
  · exact .refl t
  · exact hwait w .unlocked

end Kimojio.Stream
