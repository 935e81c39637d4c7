import Kimojio.Transition
import Kimojio.Sync.TimedWait

/-!
# Kimojio.Channel.Unbounded

The unbounded channel, with any number of senders, of `recv` and of
`recv_with_deadline` futures on its receiver.

The event `has_items` is reset where a receiver finds the queue of an open
channel empty, and set by every send and by `close`. So it is set whenever
there is a message or the channel is closed, and a receiver that is not woken
waits for an event that is not set.

The number of senders is a `usize`; it stays below the number of references
to the channel, which is a `usize` too and is checked.
-/

namespace Kimojio.Channel

open Sync

inductive ChannelError where
  | closed
  | canceled
  | timeout
  deriving DecidableEq, Repr

structure AsyncChannelUnbounded (α : Type u) where
  items : List α
  closed : Bool
  hasItems : AsyncEvent
  senderCount : Nat

namespace AsyncChannelUnbounded

def new : AsyncChannelUnbounded α where
  items := []
  closed := false
  hasItems := .new
  senderCount := 1

def pushBack (c : AsyncChannelUnbounded α) (message : α) : Except α (AsyncChannelUnbounded α) :=
  if c.closed then .error message else .ok { c with items := c.items ++ [message] }

def send (c : AsyncChannelUnbounded α) (message : α) : AsyncChannelUnbounded α × Except α Unit :=
  match c.pushBack message with
  | .ok c => ({ c with hasItems := c.hasItems.set }, .ok ())
  | .error message => (c, .error message)

def popFront (c : AsyncChannelUnbounded α) :
    AsyncChannelUnbounded α × Except ChannelError (Option α) :=
  match c.closed, c.items with
  | _, item :: items => ({ c with items }, .ok (some item))
  | true, [] => (c, .error .closed)
  | false, [] => ({ c with hasItems := c.hasItems.reset }, .ok none)

def tryRecv (c : AsyncChannelUnbounded α) :
    AsyncChannelUnbounded α × Except ChannelError (Option α) :=
  c.popFront

def close (c : AsyncChannelUnbounded α) : AsyncChannelUnbounded α :=
  { c with closed := true, hasItems := c.hasItems.set }

def incrementSenderCount (c : AsyncChannelUnbounded α) : AsyncChannelUnbounded α :=
  { c with senderCount := c.senderCount + 1 }

def decrementSenderCount (c : AsyncChannelUnbounded α) : AsyncChannelUnbounded α :=
  let c := { c with senderCount := c.senderCount - 1 }
  if c.senderCount = 0 then c.close else c

end AsyncChannelUnbounded

/-- A place in `recv`: the head of its loop, or the wait for items. -/
inductive RecvPlace where
  | head
  | waiting (t : TimedWait)
  deriving DecidableEq, Repr

/-- How a `recv` ends. -/
inductive Received (α : Type u) where
  | received (message : α)
  | failed (error : ChannelError)
  | panicked
  deriving DecidableEq, Repr

namespace AsyncChannelUnbounded

/-- One round of `recv`. -/
def recvRound (deadline aborted : Bool) (round : Round) (c : AsyncChannelUnbounded α) :
    RecvPlace → AsyncChannelUnbounded α × Resume RecvPlace (Received α)
  | .head =>
    match c.popFront with
    | (c, .ok (some message)) => (c, .ret (.received message))
    | (c, .ok none) => (c, .goto (.waiting .head))
    | (c, .error error) => (c, .ret (.failed error))
  | .waiting t =>
    let (hasItems, r) := c.hasItems.waitRound deadline aborted round t
    ({ c with hasItems }, r.call .waiting fun
      | .ok => .goto .head
      | .canceled => .ret (.failed .canceled)
      | .timeout => .ret (.failed .timeout)
      | .panicked => .ret .panicked)

end AsyncChannelUnbounded

namespace RecvPlace

/-- The waiter that a function at this place is. -/
def waiters : RecvPlace → List Nat
  | .head => []
  | .waiting t => t.waiters

/-- Drops the function where it is. -/
def drop (c : AsyncChannelUnbounded α) : RecvPlace → AsyncChannelUnbounded α
  | .head => c
  | .waiting t => { c with hasItems := t.drop c.hasItems }

end RecvPlace

/-- A `recv` or `recv_with_deadline` future. It has no place any more when
it has been resolved or dropped. -/
structure RecvFuture where
  deadline : Bool
  place : Option RecvPlace
  deriving DecidableEq, Repr

def RecvFuture.waiters (f : RecvFuture) : List Nat := f.place.toList.flatMap RecvPlace.waiters

/-- A future waits where its function does. -/
theorem RecvFuture.waiters_of_place (f : RecvFuture) (hk : f.place = some k) :
    f.waiters = k.waiters := by
  simp [waiters, hk]

/-- An unbounded channel in use, with the messages that were accepted and
received so far. -/
structure Channeling (α : Type u) where
  chan : AsyncChannelUnbounded α
  /-- For each sender, whether it is alive. -/
  senders : List Bool
  /-- Whether the receiver is alive. -/
  receiver : Bool
  futures : List RecvFuture
  accepted : List α
  received : List α
  /-- Whether a sender has called `close`. -/
  closeCalled : Bool

inductive ChannelLabel (α : Type u) where
  | send (sender : Nat) (message : α)
  | clone (sender : Nat)
  | dropSender (sender : Nat)
  | close (sender : Nat)
  | tryRecv
  | recv (deadline : Bool)
  | poll (future : Nat) (aborted : Bool) (rounds : List Round)
  | dropFuture (future : Nat)
  | dropReceiver
  | cancelWait (waitData : Nat)
  deriving DecidableEq, Repr

namespace Channeling

/-- One poll of the future `f`. -/
def pollRecv (s : Channeling α) (aborted : Bool) (rounds : List Round) (f : RecvFuture) :
    Option (AsyncChannelUnbounded α × (RecvPlace ⊕ Received α)) :=
  f.place.bind fun place =>
    resume (AsyncChannelUnbounded.recvRound f.deadline aborted) rounds s.chan place

/-- The result of a poll is handed to the caller. -/
def polled (s : Channeling α) (i : Nat) (f : RecvFuture) :
    AsyncChannelUnbounded α × (RecvPlace ⊕ Received α) → Channeling α
  | (chan, .inl place) => { s with chan, futures := s.futures.set i { f with place := some place } }
  | (chan, .inr (.received message)) =>
    { s with
      chan
      received := s.received ++ [message]
      futures := s.futures.set i { f with place := none } }
  | (chan, .inr _) => { s with chan, futures := s.futures.set i { f with place := none } }

/-- What one of the parties does. A sender or receiver that has been dropped
can do nothing. -/
def next (s : Channeling α) : ChannelLabel α → Option (Channeling α)
  | .send i message =>
    if s.senders[i]? = some true then
      match s.chan.send message with
      | (chan, .ok ()) => some { s with chan, accepted := s.accepted ++ [message] }
      | (chan, .error _) => some { s with chan }
    else none
  | .clone i =>
    if s.senders[i]? = some true then
      some { s with chan := s.chan.incrementSenderCount, senders := s.senders ++ [true] }
    else none
  | .dropSender i =>
    if s.senders[i]? = some true then
      some { s with chan := s.chan.decrementSenderCount, senders := s.senders.set i false }
    else none
  | .close i =>
    if s.senders[i]? = some true then some { s with chan := s.chan.close, closeCalled := true }
    else none
  | .tryRecv =>
    if s.receiver then
      match s.chan.tryRecv with
      | (chan, .ok (some message)) => some { s with chan, received := s.received ++ [message] }
      | (chan, _) => some { s with chan }
    else none
  | .recv deadline =>
    if s.receiver then some { s with futures := s.futures ++ [⟨deadline, some .head⟩] } else none
  | .poll i aborted rounds =>
    (s.futures[i]?).bind fun f => (s.pollRecv aborted rounds f).map (s.polled i f)
  | .dropFuture i =>
    (s.futures[i]?).bind fun f => f.place.map fun place =>
      { s with
        chan := place.drop s.chan
        futures := s.futures.set i { f with place := none } }
  | .dropReceiver =>
    if s.receiver then some { s with chan := s.chan.close, receiver := false } else none
  | .cancelWait d =>
    some { s with chan := { s.chan with hasItems := s.chan.hasItems.cancelWait d } }

end Channeling

/-- A new channel, with one sender. -/
def channeling (α : Type u) : System (Channeling α) (ChannelLabel α) where
  start := ⟨.new, [true], true, [], [], [], false⟩
  next := Channeling.next

/-! ## One poll -/

namespace RecvPlace

def Valid : RecvPlace → Prop
  | .head => True
  | .waiting t => t.Valid

/-- Rounds that are left while `has_items` is set. -/
def left (deadline : Bool) : RecvPlace → Nat
  | .head => 0
  | .waiting t => t.left deadline + 1

theorem left_lt_three (deadline : Bool) (k : RecvPlace) : k.left deadline < 3 := by
  rcases k with _ | _ | w <;> cases deadline <;> simp [left, TimedWait.left]

end RecvPlace

namespace AsyncChannelUnbounded

/-- A channel with the waiters `ws`: whoever looks at `has_items` finds out
that there is a message or that the channel is closed. -/
structure Sound (c : AsyncChannelUnbounded α) (ws : List Nat) : Prop where
  signals : c.items ≠ [] ∨ c.closed = true → c.hasItems.state = true
  calm : Calm c.hasItems ws

/-- Nothing but the event has changed. -/
structure Same (c c' : AsyncChannelUnbounded α) : Prop where
  items : c'.items = c.items
  closed : c'.closed = c.closed
  senderCount : c'.senderCount = c.senderCount

/-- What a `recv` that returns has done to the channel. -/
def Took (c c' : AsyncChannelUnbounded α) : Received α → Prop
  | .received message => c.items = message :: c'.items
  | .failed .closed => c'.items = c.items ∧ c.items = [] ∧ c.closed = true
  | .failed .timeout => c'.items = c.items ∧ c.closed = false
  | .failed .canceled => c'.items = c.items
  | .panicked => c'.items = c.items

variable {c c' : AsyncChannelUnbounded α} {ws : List Nat} {k : RecvPlace} {deadline aborted : Bool}
  {round : Round}

theorem Same.refl (c : AsyncChannelUnbounded α) : Same c c := ⟨rfl, rfl, rfl⟩

/-- An event that is not set tells that there is nothing to receive. -/
theorem Sound.open_of_unset (h : c.Sound ws) (hunset : c.hasItems.state = false) :
    c.items = [] ∧ c.closed = false := by
  have hnot : ¬ (c.items ≠ [] ∨ c.closed = true) := fun hset => by
    have := h.signals hset
    rw [hunset] at this
    cases this
  simpa using hnot

/-- After a `set` everybody has been told. -/
theorem Sound.of_set {items : List α} {closed : Bool} {senderCount : Nat} (h : Calm e ws) :
    Sound ⟨items, closed, e.set, senderCount⟩ ws where
  signals := fun _ => by simp [AsyncEvent.set]
  calm := h.set

theorem Sound.perm (h : c.Sound ws) (hp : ws.Perm ws') : c.Sound ws' where
  signals := h.signals
  calm := h.calm.perm hp

/-- A change of the event that keeps its state. -/
theorem Sound.withHasItems (h : c.Sound ws) (hstate : e.state = c.hasItems.state)
    (hcalm : Calm e ws') : Sound { c with hasItems := e } ws' where
  signals := fun hset => hstate.trans (h.signals hset)
  calm := hcalm

/-- What `pop_front` finds. It resets the event only where it finds nothing. -/
theorem Sound.popFront (h : c.Sound ws) :
    match c.popFront with
    | (c', .ok (some message)) =>
      c.items = message :: c'.items ∧ c'.closed = c.closed ∧
        c'.senderCount = c.senderCount ∧ c'.Sound ws
    | (c', .ok none) => Same c c' ∧ c.closed = false ∧ c'.Sound ws
    | (c', .error error) => c' = c ∧ error = .closed ∧ c.items = [] ∧ c.closed = true := by
  obtain ⟨items, closed, e, count⟩ := c
  cases items with
  | cons message items =>
    have hset : e.state = true := h.signals (.inl (by simp))
    have hsound : Sound ⟨items, closed, e, count⟩ ws := ⟨fun _ => hset, h.calm⟩
    cases closed
    · exact ⟨rfl, rfl, rfl, hsound⟩
    · exact ⟨rfl, rfl, rfl, hsound⟩
  | nil =>
    cases closed with
    | true => exact ⟨rfl, rfl, rfl, rfl⟩
    | false => exact ⟨⟨rfl, rfl, rfl⟩, rfl, by simp, h.calm.reset⟩

/-- What holds of a channel `c'` at the place `k` of a `recv` that found the
channel `c`. -/
structure During (c : AsyncChannelUnbounded α) (ws : List Nat) (c' : AsyncChannelUnbounded α)
    (k : RecvPlace) : Prop where
  same : Same c c'
  valid : k.Valid
  sound : c'.Sound (k.waiters ++ ws)

/-- What holds when the `recv` is suspended: there is nothing to receive. -/
structure Suspends (c : AsyncChannelUnbounded α) (ws : List Nat) (c' : AsyncChannelUnbounded α)
    (k : RecvPlace) : Prop extends During c ws c' k where
  items : c.items = []
  closed : c.closed = false

/-- What holds when the `recv` returns. -/
structure Returns (c : AsyncChannelUnbounded α) (ws : List Nat) (c' : AsyncChannelUnbounded α)
    (r : Received α) : Prop where
  took : Took c c' r
  closed : c'.closed = c.closed
  senderCount : c'.senderCount = c.senderCount
  sound : c'.Sound ws

/-- A round at the head of the loop. -/
theorem recvRound_head_ends (h : During c ws c' .head) :
    Resume.Ends (During c ws) (Suspends c ws) (Returns c ws)
      (c'.recvRound deadline aborted round .head) := by
  have hsame := h.same
  have hpop := Sound.popFront h.sound
  unfold recvRound
  dsimp only
  split
  · next c₁ message heq =>
    rw [heq] at hpop
    obtain ⟨hitems, hclosed, hcount, hsound⟩ := hpop
    exact ⟨hsame.items.symm.trans hitems, hclosed.trans hsame.closed,
      hcount.trans hsame.senderCount, hsound⟩
  · next c₁ heq =>
    rw [heq] at hpop
    obtain ⟨hsame₁, -, hsound⟩ := hpop
    exact ⟨⟨hsame₁.items.trans hsame.items, hsame₁.closed.trans hsame.closed,
      hsame₁.senderCount.trans hsame.senderCount⟩, trivial, hsound⟩
  · next c₁ error heq =>
    rw [heq] at hpop
    obtain ⟨rfl, rfl, hitems, hclosed⟩ := hpop
    exact ⟨⟨hsame.items, hsame.items.symm.trans hitems, hsame.closed.symm.trans hclosed⟩,
      hsame.closed, hsame.senderCount, h.sound⟩

/-- A round of the wait for items. -/
theorem recvRound_waiting_ends (h : During c ws c' (.waiting t)) :
    Resume.Ends (During c ws) (Suspends c ws) (Returns c ws)
      (c'.recvRound deadline aborted round (.waiting t)) := by
  have hsame := h.same
  have hends : Resume.Ends (WaitGoes c'.hasItems ws) (WaitSuspends c'.hasItems ws)
      (WaitReturns c'.hasItems ws) (c'.hasItems.waitRound deadline aborted round t) :=
    waitRound_ends h.valid h.sound.calm
  have hleft {e : AsyncEvent} {ws' : List Nat} (hstate : e.state = c'.hasItems.state)
      (hcalm : Calm e ws') : Sound { c' with hasItems := e } ws' :=
    h.sound.withHasItems hstate hcalm
  unfold recvRound
  dsimp only
  generalize c'.hasItems.waitRound deadline aborted round t = e at hends
  obtain ⟨e, t' | t' | r⟩ := e
  · obtain ⟨hstate, hvalid, hcalm⟩ := hends
    exact ⟨⟨hsame.items, hsame.closed, hsame.senderCount⟩, hvalid, hleft hstate hcalm⟩
  · obtain ⟨hunset, hstate, d, rfl, hcalm⟩ := hends
    obtain ⟨hitems, hclosed⟩ := h.sound.open_of_unset hunset
    exact ⟨⟨⟨hsame.items, hsame.closed, hsame.senderCount⟩, rfl, hleft (hstate.trans hunset.symm)
      hcalm⟩,
      hsame.items.symm.trans hitems, hsame.closed.symm.trans hclosed⟩
  · obtain ⟨hstate, -, htimeout, hcalm⟩ := hends
    have hsound := hleft hstate hcalm
    cases r with
    | ok => exact ⟨⟨hsame.items, hsame.closed, hsame.senderCount⟩, trivial, hsound⟩
    | canceled | panicked => exact ⟨hsame.items, hsame.closed, hsame.senderCount, hsound⟩
    | timeout =>
      obtain ⟨-, hclosed⟩ := h.sound.open_of_unset (htimeout rfl)
      exact ⟨⟨hsame.items, hsame.closed.symm.trans hclosed⟩, hsame.closed, hsame.senderCount,
        hsound⟩

theorem recvRound_ends (h : During c ws c' k) :
    Resume.Ends (During c ws) (Suspends c ws) (Returns c ws)
      (c'.recvRound deadline aborted round k) := by
  cases k with
  | head => exact recvRound_head_ends h
  | waiting t => exact recvRound_waiting_ends h

/-- **One poll** of a `recv`. -/
theorem recv_polled (hvalid : k.Valid) (h : c.Sound (k.waiters ++ ws))
    (hr : resume (recvRound deadline aborted) rounds c k = some r) :
    Polled (Suspends c ws) (Returns c ws) r :=
  resume_rule (fun _ _ _ hduring => recvRound_ends hduring) ⟨.refl c, hvalid, h⟩ hr

/-- On a closed channel every round comes nearer to the end of the poll. -/
theorem recvRound_nearer (hclosed : c'.closed = true) (h : During c ws c' k) :
    Resume.Ends (fun _ k' => k'.left deadline < k.left deadline) (fun _ _ => True)
      (fun _ _ => True) (c'.recvRound deadline aborted round k) := by
  cases k with
  | head =>
    unfold recvRound popFront
    rw [hclosed]
    cases c'.items <;> trivial
  | waiting t =>
    have hnear : Resume.Ends (fun _ t' => t'.left deadline < t.left deadline) (fun _ _ => False)
        (fun _ _ => True) (c'.hasItems.waitRound deadline aborted round t) :=
      waitRound_nearer (h.sound.signals (.inr hclosed)) h.valid h.sound.calm
    unfold recvRound
    dsimp only
    generalize c'.hasItems.waitRound deadline aborted round t = e at hnear
    obtain ⟨e, t' | t' | r⟩ := e
    · exact Nat.succ_lt_succ hnear
    · trivial
    · cases r <;> simp [Resume.call, Resume.Ends, RecvPlace.left]

/-- A poll on a closed channel ends within three rounds. -/
theorem recv_isSome (hclosed : c.closed = true) (hvalid : k.Valid) (h : c.Sound (k.waiters ++ ws))
    (hlen : 3 ≤ rounds.length) : (resume (recvRound deadline aborted) rounds c k).isSome := by
  have hround (round : Round) (c' : AsyncChannelUnbounded α) (k : RecvPlace)
      (hduring : During c ws c' k) :
      Resume.Ends (fun c' k' => During c ws c' k' ∧ k'.left deadline < k.left deadline)
        (fun _ _ => True) (fun _ _ => True) (c'.recvRound deadline aborted round k) := by
    have hclosed : c'.closed = true := hduring.same.closed.trans hclosed
    exact ((recvRound_ends hduring).and (recvRound_nearer hclosed hduring)).imp (fun _ _ h => h)
      (fun _ _ _ => trivial) fun _ _ _ => trivial
  exact resume_isSome hround ⟨.refl c, hvalid, h⟩
    (Nat.lt_of_lt_of_le (k.left_lt_three deadline) hlen)

/-- A message is rejected exactly when the channel is closed. -/
theorem send_result (c : AsyncChannelUnbounded α) (message : α) :
    (c.send message).2 = if c.closed then .error message else .ok () := by
  unfold send pushBack
  cases c.closed <;> rfl

/-- `try_recv` fails exactly when the channel is closed and empty. -/
theorem tryRecv_error (c : AsyncChannelUnbounded α) (error : ChannelError) :
    c.tryRecv.2 = .error error ↔ error = .closed ∧ c.closed = true ∧ c.items = [] := by
  unfold tryRecv AsyncChannelUnbounded.popFront
  cases c.closed <;> cases c.items <;> simp [eq_comm]

/-- A future that is dropped gives up its wait, and nothing else. -/
theorem drop_sound (hvalid : k.Valid) (h : c.Sound (k.waiters ++ ws)) :
    Same c (k.drop c) ∧ (k.drop c).Sound ws := by
  cases k with
  | head => exact ⟨.refl c, h⟩
  | waiting t =>
    obtain ⟨hcalm, hstate⟩ := h.calm.dropTimed hvalid
    exact ⟨⟨rfl, rfl, rfl⟩, h.withHasItems hstate hcalm⟩

end AsyncChannelUnbounded

/-! ## Every run -/

namespace Channeling

open AsyncChannelUnbounded

structure Inv (s : Channeling α) : Prop where
  accepted : s.accepted = s.received ++ s.chan.items
  senderCount : s.chan.senderCount = s.senders.count true
  closed_iff : s.chan.closed = true ↔ s.closeCalled = true ∨ s.receiver = false ∨ true ∉ s.senders
  valid : ∀ f ∈ s.futures, ∀ k, f.place = some k → k.Valid
  sound : s.chan.Sound (s.futures.flatMap RecvFuture.waiters)

variable {s s' : Channeling α} {i : Nat} {f : RecvFuture}

theorem Inv.start : Inv (channeling α).start where
  accepted := rfl
  senderCount := rfl
  closed_iff := by simp [channeling, AsyncChannelUnbounded.new]
  valid := by simp [channeling]
  sound := ⟨by simp [channeling, AsyncChannelUnbounded.new], Calm.withState false⟩

/-- The drop of a sender that is alive. -/
theorem count_set_false {senders : List Bool} (h : senders[i]? = some true) :
    (senders.set i false).count true + 1 = senders.count true := by
  obtain ⟨hlt, hget⟩ := List.getElem?_eq_some_iff.mp h
  have hpos : 0 < senders.count true := List.count_pos_iff.mpr (List.mem_of_getElem? h)
  rw [List.count_set hlt, hget]
  simp
  omega

/-- The future `i` goes on at another place, or ends. -/
theorem Inv.replace {chan : AsyncChannelUnbounded α} {received : List α} (h : s.Inv)
    (hf : s.futures[i]? = some f) (haccepted : s.accepted = received ++ chan.items)
    (hcount : chan.senderCount = s.chan.senderCount) (hclosed : chan.closed = s.chan.closed)
    (hvalid : ∀ k, place = some k → k.Valid)
    (hsound : ∀ ws, s.chan.Sound (f.waiters ++ ws) →
      chan.Sound (place.toList.flatMap RecvPlace.waiters ++ ws)) :
    Inv { s with chan, received, futures := s.futures.set i { f with place } } where
  accepted := haccepted
  senderCount := hcount.trans h.senderCount
  closed_iff := by
    dsimp only
    rw [hclosed]
    exact h.closed_iff
  valid := by
    intro g hg k hk
    rcases List.mem_or_eq_of_mem_set hg with hg | rfl
    · exact h.valid g hg k hk
    · exact hvalid k hk
  sound := by
    obtain ⟨ws, hold, hnew⟩ := exists_perm_flatMap_set hf RecvFuture.waiters
    exact (hsound ws (h.sound.perm hold)).perm (hnew { f with place }).symm

/-- What a poll of one of the futures has done. -/
theorem Inv.pollRecv (h : s.Inv) (hf : f ∈ s.futures) (hsound : s.chan.Sound (f.waiters ++ ws))
    (hr : s.pollRecv aborted rounds f = some r) :
    Polled (Suspends s.chan ws) (Returns s.chan ws) r := by
  obtain ⟨k, hk, hr⟩ := Option.bind_eq_some_iff.mp hr
  rw [f.waiters_of_place hk] at hsound
  exact recv_polled (h.valid f hf k hk) hsound hr

/-- The result of a poll is handed over. -/
theorem Inv.polled (h : s.Inv) (hf : s.futures[i]? = some f)
    (hr : s.pollRecv aborted rounds f = some r) : (s.polled i f r).Inv := by
  have hpolled (ws : List Nat) (hsound : s.chan.Sound (f.waiters ++ ws)) :=
    h.pollRecv (List.mem_of_getElem? hf) hsound hr
  obtain ⟨ws, hold, -⟩ := exists_perm_flatMap_set hf RecvFuture.waiters
  have hsome := hpolled ws (h.sound.perm hold)
  obtain ⟨chan, k | r⟩ := r
  · have hsame := hsome.same
    refine h.replace hf (h.accepted.trans (by rw [hsame.items]))
      hsame.senderCount hsame.closed ?_ ?_
    · rintro _ ⟨⟩
      exact hsome.valid
    · intro ws hsound
      simpa using (hpolled ws hsound).sound
  · -- however the future ends, it leaves the waiters of the others
    have hsound (ws : List Nat) (hws : s.chan.Sound (f.waiters ++ ws)) :
        chan.Sound ((none : Option RecvPlace).toList.flatMap RecvPlace.waiters ++ ws) :=
      (hpolled ws hws).sound
    have hkept (hitems : chan.items = s.chan.items) :
        Inv { s with chan, futures := s.futures.set i { f with place := none } } := by
      refine h.replace hf (h.accepted.trans (by rw [hitems]))
        hsome.senderCount hsome.closed ?_ hsound
      rintro _ ⟨⟩
    have htook := hsome.took
    cases r with
    | received message =>
      refine h.replace hf (h.accepted.trans ?_) hsome.senderCount hsome.closed ?_ hsound
      · have hitems : s.chan.items = message :: chan.items := htook
        rw [hitems]
        simp
      · rintro _ ⟨⟩
    | panicked => exact hkept htook
    | failed error =>
      cases error with
      | closed | timeout => exact hkept htook.1
      | canceled => exact hkept htook

/-- The channel is closed, for one of the three reasons there are. -/
theorem Inv.close {senders : List Bool} {receiver closeCalled : Bool} {senderCount : Nat}
    (h : s.Inv) (hcount : senderCount = senders.count true)
    (hwhy : closeCalled = true ∨ receiver = false ∨ true ∉ senders) :
    Inv { s with
      chan := { s.chan with senderCount }.close
      senders
      receiver
      closeCalled } where
  accepted := h.accepted
  senderCount := hcount
  closed_iff := ⟨fun _ => hwhy, fun _ => rfl⟩
  valid := h.valid
  sound := Sound.of_set h.sound.calm

/-- The drop of the last sender closes the channel. -/
theorem Inv.dropSender (h : s.Inv) (hi : s.senders[i]? = some true) :
    Inv { s with chan := s.chan.decrementSenderCount, senders := s.senders.set i false } := by
  have hcount := count_set_false hi
  have hsenders := h.senderCount
  unfold decrementSenderCount
  dsimp only
  split
  · next hzero =>
    refine h.close (by omega) (.inr (.inr ?_))
    rw [← List.count_eq_zero]
    omega
  · next hpos =>
    refine ⟨h.accepted, (by dsimp only; omega), ?_, h.valid, ⟨h.sound.signals, h.sound.calm⟩⟩
    have hleft : true ∈ s.senders.set i false := by
      rw [← List.count_pos_iff]
      omega
    have hbefore := h.closed_iff
    simp only [List.mem_of_getElem? hi, not_true_eq_false, or_false] at hbefore
    simpa [hleft] using hbefore

/-- Whatever a party does keeps the invariant. -/
theorem Inv.next (h : s.Inv) (hs : s.next a = some s') : s'.Inv := by
  cases a with
  | send i message =>
    rw [Channeling.next] at hs
    unfold AsyncChannelUnbounded.send pushBack at hs
    obtain ⟨-, hs⟩ := Option.ite_none_right_eq_some.mp hs
    cases hclosed : s.chan.closed with
    | true =>
      simp only [hclosed, if_true] at hs
      cases hs
      exact h
    | false =>
      simp only [hclosed, Bool.false_eq_true, if_false] at hs
      cases hs
      refine ⟨?_, h.senderCount, ?_, h.valid, Sound.of_set h.sound.calm⟩
      · simp [h.accepted]
      · have hbefore := h.closed_iff
        rwa [hclosed] at hbefore
  | clone i =>
    obtain ⟨hi, rfl⟩ := Option.ite_some_none_eq_some.mp hs
    refine ⟨h.accepted, ?_, ?_, h.valid, ⟨h.sound.signals, h.sound.calm⟩⟩
    · simp [incrementSenderCount, h.senderCount]
    · have hbefore := h.closed_iff
      simp only [List.mem_of_getElem? hi, not_true_eq_false, or_false] at hbefore
      simpa [incrementSenderCount] using hbefore
  | dropSender i =>
    obtain ⟨hi, rfl⟩ := Option.ite_some_none_eq_some.mp hs
    exact h.dropSender hi
  | close i =>
    obtain ⟨-, rfl⟩ := Option.ite_some_none_eq_some.mp hs
    exact h.close h.senderCount (.inl rfl)
  | tryRecv =>
    rw [Channeling.next, tryRecv] at hs
    have hpop := h.sound.popFront
    obtain ⟨-, hs⟩ := Option.ite_none_right_eq_some.mp hs
    split at hs
    · next chan message heq =>
      cases hs
      rw [heq] at hpop
      obtain ⟨hitems, hclosed, hcount, hsound⟩ := hpop
      refine ⟨?_, hcount.trans h.senderCount, ?_, h.valid, hsound⟩
      · simp [h.accepted, hitems]
      · dsimp only
        rw [hclosed]
        exact h.closed_iff
    · next chan r hne heq =>
      cases hs
      rw [heq] at hpop
      match r, hne, hpop with
      | .ok none, _, hpop =>
        obtain ⟨hsame, -, hsound⟩ := hpop
        refine ⟨?_, hsame.senderCount.trans h.senderCount, ?_, h.valid, hsound⟩
        · dsimp only
          rw [hsame.items]
          exact h.accepted
        · dsimp only
          rw [hsame.closed]
          exact h.closed_iff
      | .ok (some message), hne, _ => exact absurd rfl (hne message)
      | .error error, _, hpop =>
        obtain ⟨rfl, -⟩ := hpop
        exact h
  | recv deadline =>
    obtain ⟨-, rfl⟩ := Option.ite_some_none_eq_some.mp hs
    refine ⟨h.accepted, h.senderCount, h.closed_iff, ?_, ?_⟩
    · intro g hg k hk
      rcases List.mem_append.mp hg with hg | hg
      · exact h.valid g hg k hk
      · obtain rfl := List.mem_singleton.mp hg
        cases hk
        trivial
    · simpa [RecvFuture.waiters, RecvPlace.waiters] using h.sound
  | poll i aborted rounds =>
    obtain ⟨f, hf, hs⟩ := Option.bind_eq_some_iff.mp hs
    obtain ⟨r, hr, rfl⟩ := Option.map_eq_some_iff.mp hs
    exact h.polled hf hr
  | dropFuture i =>
    obtain ⟨f, hf, hs⟩ := Option.bind_eq_some_iff.mp hs
    obtain ⟨k, hk, rfl⟩ := Option.map_eq_some_iff.mp hs
    have hvalid := h.valid f (List.mem_of_getElem? hf) k hk
    obtain ⟨ws, hold, -⟩ := exists_perm_flatMap_set hf RecvFuture.waiters
    have hdrop (ws : List Nat) (hws : s.chan.Sound (f.waiters ++ ws)) :=
      drop_sound hvalid (f.waiters_of_place hk ▸ hws)
    have hsame := (hdrop ws (h.sound.perm hold)).1
    refine h.replace hf (h.accepted.trans (by rw [hsame.items])) hsame.senderCount hsame.closed ?_
      fun ws hws => (hdrop ws hws).2
    rintro _ ⟨⟩
  | dropReceiver =>
    obtain ⟨-, rfl⟩ := Option.ite_some_none_eq_some.mp hs
    exact h.close h.senderCount (.inr (.inl rfl))
  | cancelWait d =>
    cases hs
    exact ⟨h.accepted, h.senderCount, h.closed_iff, h.valid,
      h.sound.withHasItems rfl h.sound.calm.cancelWait⟩

theorem inv_of_reaches (h : (channeling α).Reaches (fun _ _ => True) s) : s.Inv :=
  h.invariant (P := Inv) Inv.start fun _ _ _ hinv _ hs => hinv.next hs

/-- The call was canceled, or its task was aborted. -/
def interrupted : RecvPlace ⊕ Received α → Bool
  | .inr (.failed .canceled) => true
  | .inr .panicked => true
  | _ => false

/-- What senders and receivers can rely on. -/
structure Delivers (s : Channeling α) : Prop where
  /-- The messages come out once each, in the order in which they went in. -/
  received : s.received <+: s.accepted
  /-- What has not been received yet is in the queue. -/
  queued : s.accepted = s.received ++ s.chan.items
  /-- A message is rejected exactly when the channel is closed. -/
  send : ∀ message, (s.chan.send message).2 = if s.chan.closed then .error message else .ok ()
  tryRecv : ∀ error, s.chan.tryRecv.2 = .error error ↔
    error = .closed ∧ s.chan.closed = true ∧ s.chan.items = []
  recv : ∀ f ∈ s.futures, ∀ aborted rounds r, s.pollRecv aborted rounds f = some r →
    interrupted r.2 = false →
    (r.2 = .inr (.failed .closed) ↔ s.chan.closed = true ∧ s.chan.items = [])
  /-- On a closed channel every poll returns. -/
  recv_returns : s.chan.closed = true → ∀ f ∈ s.futures, f.place.isSome = true →
    ∀ aborted rounds, 3 ≤ rounds.length → (s.pollRecv aborted rounds f).isSome = true
  closed_iff : s.chan.closed = true ↔ s.closeCalled = true ∨ s.receiver = false ∨ true ∉ s.senders
  /-- Nobody waits for what is there. -/
  awake : s.chan.items ≠ [] ∨ s.chan.closed = true → ∀ f ∈ s.futures, ∀ d ∈ f.waiters,
    ¬ (d ∈ s.chan.hasItems.waitingTasks ∧ (s.chan.hasItems.waits d).woken = false)

/-- A `recv` that is not interrupted reports `Closed` when there is nothing left. -/
theorem Inv.recv_closed_iff (h : s.Inv) (hf : f ∈ s.futures)
    (hr : s.pollRecv aborted rounds f = some r) (hint : interrupted r.2 = false) :
    r.2 = .inr (.failed .closed) ↔ s.chan.closed = true ∧ s.chan.items = [] := by
  obtain ⟨i, hi⟩ := List.mem_iff_getElem?.mp hf
  obtain ⟨ws, hold, -⟩ := exists_perm_flatMap_set hi RecvFuture.waiters
  have hpolled := h.pollRecv hf (h.sound.perm hold) hr
  obtain ⟨chan, k | r⟩ := r
  · have hopen := hpolled.closed
    simp [hopen]
  · have htook := hpolled.took
    match r, htook, hint with
    | .received message, htook, _ =>
      have hitems : s.chan.items = message :: chan.items := htook
      simp [hitems]
    | .failed .closed, htook, _ => simp [htook.2]
    | .failed .timeout, htook, _ => simp [htook.2]

theorem Inv.delivers (h : s.Inv) : s.Delivers where
  received := ⟨s.chan.items, h.accepted.symm⟩
  queued := h.accepted
  send := send_result s.chan
  tryRecv := tryRecv_error s.chan
  recv := fun f hf aborted rounds r hr hint => h.recv_closed_iff hf hr hint
  recv_returns := by
    intro hclosed f hf hplace aborted rounds hlen
    obtain ⟨k, hk⟩ := Option.isSome_iff_exists.mp hplace
    obtain ⟨i, hi⟩ := List.mem_iff_getElem?.mp hf
    obtain ⟨ws, hold, -⟩ := exists_perm_flatMap_set hi RecvFuture.waiters
    have hsound := h.sound.perm hold
    rw [f.waiters_of_place hk] at hsound
    unfold Channeling.pollRecv
    rw [hk]
    exact recv_isSome hclosed (h.valid f hf k hk) hsound hlen
  closed_iff := h.closed_iff
  awake := by
    intro hset f hf d hd hasleep
    have hlinked := h.sound.calm.unlinked (h.sound.signals hset)
    rw [hlinked] at hasleep
    cases hasleep.1

end Channeling

/-- **The unbounded channel delivers**: in every run, whoever sends, receives,
closes, cancels and drops, and in whatever order. -/
theorem unbounded_delivers (s : Channeling α)
    (h : (channeling α).Reaches (fun _ _ => True) s) : s.Delivers :=
  (Channeling.inv_of_reaches h).delivers

/-- Two receivers wait, one with a deadline. One is woken by a send and gets
the message, and finds the channel closed by the drop of its last sender. -/
theorem unbounded_delivers_two :
    ∃ s, (channeling Nat).Reaches (fun _ _ => True) s ∧ s.accepted = [7, 8] ∧
      s.received = [7] ∧ s.chan.closed = true ∧ s.Delivers := by
  have hrun : (channeling Nat).run (channeling Nat).start
      [.recv false, .recv true, .poll 0 false (List.replicate 4 ⟨true, false, none, false⟩),
        .poll 1 false (List.replicate 4 ⟨true, false, none, false⟩), .send 0 7, .send 0 8,
        .poll 1 false (List.replicate 4 ⟨true, false, none, false⟩), .dropSender 0] =
      some _ := rfl
  have hreach := System.reaches_run hrun
  exact ⟨_, hreach, rfl, rfl, rfl, unbounded_delivers _ hreach⟩

end Kimojio.Channel
