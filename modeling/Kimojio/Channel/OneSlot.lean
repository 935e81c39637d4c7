import Kimojio.Channel.Unbounded

/-!
# Kimojio.Channel.OneSlot

The channel that holds one message, with any number of `send` and `recv`
futures on it.

Senders wait for an empty slot and receivers for a full one, in one and the
same list. Every change of the slot and every close empties the list, so
whoever is linked has registered after the last change, and found the slot in
the other state.
-/

namespace Kimojio.Channel

open Sync

/-- A `WaitList`: what an event has besides its state. -/
structure WaitList where
  waitingTasks : List Nat
  waits : Nat → WaitData
  /-- The number of the next `WaitData`. -/
  next : Nat

namespace WaitList

def new : WaitList := ⟨[], fun _ => ⟨false, false⟩, 0⟩

/-- The list as a `WaitFuture` on it sees it: what `is_complete` says of its
source stands for the state of an event. -/
def toEvent (l : WaitList) (isComplete : Bool) : AsyncEvent :=
  ⟨isComplete, l.waitingTasks, l.waits, l.next⟩

def ofEvent (e : AsyncEvent) : WaitList := ⟨e.waitingTasks, e.waits, e.next⟩

def wakeAll (l : WaitList) : WaitList := ofEvent (l.toEvent false).wakeAll

end WaitList

/-- Who waits for the channel: `ChannelSendSource` or `ChannelRecvSource`. -/
inductive Side where
  | send
  | recv
  deriving DecidableEq, Repr

structure AsyncChannel (α : Type u) where
  value : Option α
  closed : Bool
  waiters : WaitList
  senderCount : Nat

inductive SendError (α : Type u) where
  | channelClosed (message : α)
  | channelFull (message : α)
  deriving DecidableEq, Repr

namespace AsyncChannel

def new : AsyncChannel α where
  value := none
  closed := false
  waiters := .new
  senderCount := 1

/-- `is_complete` of the two sources. -/
def isComplete (c : AsyncChannel α) : Side → Bool
  | .send => c.closed || c.value.isNone
  | .recv => c.closed || c.value.isSome

def wakeAll (c : AsyncChannel α) : AsyncChannel α := { c with waiters := c.waiters.wakeAll }

def trySend (c : AsyncChannel α) (message : α) : AsyncChannel α × Except (SendError α) Unit :=
  if !c.closed then
    if c.value.isNone then ({ c with value := some message }.wakeAll, .ok ())
    else (c, .error (.channelFull message))
  else (c, .error (.channelClosed message))

def tryRecv (c : AsyncChannel α) : AsyncChannel α × Except ChannelError (Option α) :=
  match c.value with
  | some value => ({ c with value := none }.wakeAll, .ok (some value))
  | none => if !c.closed then (c, .ok none) else (c, .error .closed)

def close (c : AsyncChannel α) : AsyncChannel α := { c with closed := true }.wakeAll

def incrementSenderCount (c : AsyncChannel α) : AsyncChannel α :=
  { c with senderCount := c.senderCount + 1 }

def decrementSenderCount (c : AsyncChannel α) : AsyncChannel α :=
  let c := { c with senderCount := c.senderCount - 1 }
  if c.senderCount = 0 then c.close else c

/-- One poll of a `WaitFuture` in the middle of `send` or `recv`. -/
def wait (side : Side) (aborted : Bool) (c : AsyncChannel α) (w : WaitFuture)
    (suspend : AsyncChannel α → WaitFuture → β)
    (ready canceled panicked : AsyncChannel α → β) : β :=
  await aborted (c.waiters.toEvent (c.isComplete side)) w
    (fun e w => suspend { c with waiters := .ofEvent e } w)
    (fun e => ready { c with waiters := .ofEvent e })
    (fun e => canceled { c with waiters := .ofEvent e })
    (fun e => panicked { c with waiters := .ofEvent e })

/-- Drops a `WaitFuture`. -/
def dropWait (side : Side) (c : AsyncChannel α) (w : WaitFuture) : AsyncChannel α :=
  { c with waiters := .ofEvent (w.drop (c.waiters.toEvent (c.isComplete side))) }

end AsyncChannel

/-- A place in `send`, which holds its message, or in `recv`: the head of the
loop, or the wait. -/
structure Place (μ : Type u) where
  message : μ
  wait : Option WaitFuture
  deriving DecidableEq, Repr

/-- How a `send` ends. A `send` that panics drops its message. -/
inductive Sent (α : Type u) where
  | sent
  | unsent (message : α)
  | panicked
  deriving DecidableEq, Repr

namespace AsyncChannel

/-- One round of `send`. -/
def sendRound (aborted : Bool) (_ : Unit) (c : AsyncChannel α) (k : Place α) :
    AsyncChannel α × Resume (Place α) (Sent α) :=
  match k.wait with
  | none =>
    match c.trySend k.message with
    | (c, .ok ()) => (c, .ret .sent)
    | (c, .error (.channelFull message)) => (c, .goto ⟨message, some (.new true)⟩)
    | (c, .error (.channelClosed message)) => (c, .ret (.unsent message))
  | some w =>
    c.wait .send aborted w (fun c w => (c, .suspend ⟨k.message, some w⟩))
      (fun c => (c, .goto ⟨k.message, none⟩)) (fun c => (c, .ret (.unsent k.message)))
      (fun c => (c, .ret .panicked))

/-- One round of `recv`. -/
def recvRound (aborted : Bool) (_ : Unit) (c : AsyncChannel α) (k : Place Unit) :
    AsyncChannel α × Resume (Place Unit) (Received α) :=
  match k.wait with
  | none =>
    match c.tryRecv with
    | (c, .ok (some value)) => (c, .ret (.received value))
    | (c, .ok none) => (c, .goto ⟨(), some (.new true)⟩)
    | (c, .error error) => (c, .ret (.failed error))
  | some w =>
    c.wait .recv aborted w (fun c w => (c, .suspend ⟨(), some w⟩))
      (fun c => (c, .goto ⟨(), none⟩)) (fun c => (c, .ret (.failed .canceled)))
      (fun c => (c, .ret .panicked))

end AsyncChannel

/-- The futures of `send` and `recv`. -/
inductive SlotFuture (α : Type u) where
  | send (place : Place α)
  | recv (place : Place Unit)
  | done
  deriving DecidableEq, Repr

/-- The message that a pending `send` holds. -/
def SlotFuture.held : SlotFuture α → List α
  | .send place => [place.message]
  | _ => []

/-- A channel in use. Every message that was given to it is recorded where it
has gone. -/
structure Slotting (α : Type u) where
  chan : AsyncChannel α
  /-- For each sender, whether it is alive. -/
  senders : List Bool
  /-- Whether the receiver is alive. -/
  receiver : Bool
  /-- Whether the channel itself has been dropped, with its last reference. -/
  freed : Bool
  futures : List (SlotFuture α)
  given : List α
  entered : List α
  received : List α
  returned : List α
  dropped : List α

inductive SlotLabel (α : Type u) where
  | send (sender : Nat) (message : α)
  | trySend (sender : Nat) (message : α)
  | clone (sender : Nat)
  | dropSender (sender : Nat)
  | recv
  | tryRecv
  | poll (future : Nat) (aborted : Bool) (rounds : Nat)
  | dropFuture (future : Nat)
  | dropReceiver
  | free
  | cancelWait (waitData : Nat)
  deriving DecidableEq, Repr

namespace Slotting

/-- The result of a poll of a `send` is handed to its caller. -/
def polledSend (s : Slotting α) (i : Nat) (message : α) :
    AsyncChannel α × (Place α ⊕ Sent α) → Slotting α
  | (chan, .inl place) => { s with chan, futures := s.futures.set i (.send place) }
  | (chan, .inr .sent) =>
    { s with chan, futures := s.futures.set i .done, entered := s.entered ++ [message] }
  | (chan, .inr (.unsent message)) =>
    { s with chan, futures := s.futures.set i .done, returned := s.returned ++ [message] }
  | (chan, .inr .panicked) =>
    { s with chan, futures := s.futures.set i .done, dropped := s.dropped ++ [message] }

/-- The result of a poll of a `recv` is handed to its caller. -/
def polledRecv (s : Slotting α) (i : Nat) : AsyncChannel α × (Place Unit ⊕ Received α) → Slotting α
  | (chan, .inl place) => { s with chan, futures := s.futures.set i (.recv place) }
  | (chan, .inr (.received message)) =>
    { s with chan, futures := s.futures.set i .done, received := s.received ++ [message] }
  | (chan, .inr _) => { s with chan, futures := s.futures.set i .done }

/-- Drops a future, with the message that it holds. -/
def dropFuture (s : Slotting α) (i : Nat) (f : SlotFuture α) : Slotting α :=
  let chan := match f with
    | .send ⟨_, some w⟩ => s.chan.dropWait .send w
    | .recv ⟨_, some w⟩ => s.chan.dropWait .recv w
    | _ => s.chan
  { s with chan, futures := s.futures.set i .done, dropped := s.dropped ++ f.held }

/-- What one of the parties does while there is a channel. -/
def step (s : Slotting α) : SlotLabel α → Option (Slotting α)
  | .send i message =>
    if s.senders[i]? = some true then
      some { s with
        futures := s.futures ++ [.send ⟨message, none⟩]
        given := s.given ++ [message] }
    else none
  | .trySend i message =>
    if s.senders[i]? = some true then
      let s := { s with given := s.given ++ [message] }
      match s.chan.trySend message with
      | (chan, .ok ()) => some { s with chan, entered := s.entered ++ [message] }
      | (chan, .error (.channelFull message)) =>
        some { s with chan, returned := s.returned ++ [message] }
      | (chan, .error (.channelClosed message)) =>
        some { s with chan, returned := s.returned ++ [message] }
    else none
  | .clone i =>
    if s.senders[i]? = some true then
      some { s with chan := s.chan.incrementSenderCount, senders := s.senders ++ [true] }
    else none
  | .dropSender i =>
    if s.senders[i]? = some true then
      some { s with chan := s.chan.decrementSenderCount, senders := s.senders.set i false }
    else none
  | .recv =>
    if s.receiver then some { s with futures := s.futures ++ [.recv ⟨(), none⟩] } else none
  | .tryRecv =>
    if s.receiver then
      match s.chan.tryRecv with
      | (chan, .ok (some message)) => some { s with chan, received := s.received ++ [message] }
      | (chan, _) => some { s with chan }
    else none
  | .poll i aborted rounds =>
    (s.futures[i]?).bind fun
      | .send place =>
        (resume (AsyncChannel.sendRound aborted) (List.replicate rounds ()) s.chan place).map
          (s.polledSend i place.message)
      | .recv place =>
        (resume (AsyncChannel.recvRound aborted) (List.replicate rounds ()) s.chan place).map
          (s.polledRecv i)
      | .done => none
  | .dropFuture i => (s.futures[i]?).map (s.dropFuture i)
  | .dropReceiver =>
    if s.receiver then some { s with chan := s.chan.close, receiver := false } else none
  | .free =>
    -- nobody refers to the channel any more, and no future borrows from it
    if true ∉ s.senders ∧ s.receiver = false ∧ s.futures.all (fun f => f matches .done) then
      some { s with
        chan := { s.chan with value := none }
        freed := true
        dropped := s.dropped ++ s.chan.value.toList }
    else none
  | .cancelWait d =>
    let e := (s.chan.waiters.toEvent false).cancelWait d
    some { s with chan := { s.chan with waiters := .ofEvent e } }

def next (s : Slotting α) (a : SlotLabel α) : Option (Slotting α) :=
  if s.freed then none else s.step a

end Slotting

/-- A new channel, with one sender. -/
def slotting (α : Type u) : System (Slotting α) (SlotLabel α) where
  start := ⟨.new, [true], true, false, [], [], [], [], [], []⟩
  next := Slotting.next

/-! ## Waiting for the slot -/

/-- The wait of a `send` or `recv`, if it is suspended. -/
def Place.awaits (side : Side) (k : Place μ) : List (Side × Nat) :=
  (waitersOf k.wait).map (side, ·)

/-- The wait, if there is one, has not succeeded. -/
def Place.Valid (k : Place μ) : Prop := ∀ w, k.wait = some w → w.source = some true

namespace AsyncChannel

/-- The waits `as` on a channel: a linked one waits for the other state. -/
structure Asleep (c : AsyncChannel α) (as : List (Side × Nat)) : Prop where
  queue : Queue (c.waiters.toEvent false) (as.map Prod.snd)
  unmet : ∀ a ∈ as, a.2 ∈ c.waiters.waitingTasks → c.isComplete a.1 = false

namespace Asleep

variable {c : AsyncChannel α} {as : List (Side × Nat)} {side : Side} {d : Nat} {w : WaitFuture}

theorem perm (h : c.Asleep as) (hp : as.Perm as') : c.Asleep as' where
  queue := h.queue.perm (hp.map _)
  unmet := fun a ha => h.unmet a (hp.mem_iff.mpr ha)

/-- Whatever is done to the slot, after `wake_all` nobody is linked. -/
theorem wakeAll {value : Option α} {closed : Bool} {senderCount : Nat} (h : c.Asleep as) :
    Asleep (wakeAll ⟨value, closed, c.waiters, senderCount⟩) as where
  queue := h.queue.wakeAll.withStateField
  unmet := by
    intro a _ hlinked
    simp [AsyncChannel.wakeAll, WaitList.wakeAll, WaitList.ofEvent] at hlinked

theorem withSenderCount {senderCount : Nat} (h : c.Asleep as) :
    Asleep { c with senderCount } as where
  queue := h.queue
  unmet := h.unmet

theorem cancelWait (h : c.Asleep as) :
    Asleep { c with waiters := .ofEvent ((c.waiters.toEvent false).cancelWait d) } as where
  queue := h.queue.cancelWait
  unmet := h.unmet

/-- What the event of a wait looks like to it. -/
theorem seen (h : c.Asleep ((waitersOf (some w)).map (side, ·) ++ as)) :
    Queue (c.waiters.toEvent (c.isComplete side)) (w.waiters ++ as.map Prod.snd) := by
  have hqueue := h.queue
  simp only [waitersOf, List.map_append, List.map_map] at hqueue
  have hsame : List.map (Prod.snd ∘ (side, ·)) w.waiters = w.waiters := by
    simp [Function.comp_def]
  rw [hsame] at hqueue
  exact hqueue.withStateField

/-- A wait that has succeeded is forgotten. -/
theorem leave (h : c.Asleep ((waitersOf (some w)).map (side, ·) ++ as)) : c.Asleep as where
  queue := h.seen.leaveWait.withStateField
  unmet := fun a ha => h.unmet a (List.mem_append_right _ ha)

/-- The waits that are left when one waiter gives up. -/
theorem of_givenUp (h : c.Asleep (as' ++ as))
    (hgiven : GivenUp (c.waiters.toEvent (c.isComplete side)) ws (as.map Prod.snd) e) :
    Asleep { c with waiters := .ofEvent e } as where
  queue := hgiven.queue.withStateField
  unmet := fun a ha hlinked =>
    h.unmet a (List.mem_append_right _ ha) (hgiven.linked a.2 hlinked).1

/-- The waits with one that goes to sleep. -/
theorem of_suspended (h : c.Asleep (as' ++ as))
    (hsuspended : Suspended (c.waiters.toEvent (c.isComplete side)) ws (as.map Prod.snd) e d) :
    Asleep { c with waiters := .ofEvent e } ((side, d) :: as) where
  queue := hsuspended.queue.withStateField
  unmet := by
    intro a ha hlinked
    rcases List.mem_cons.mp ha with rfl | ha
    · exact hsuspended.unset
    · rcases hsuspended.linked a.2 hlinked with hlinked | heq
      · exact h.unmet a (List.mem_append_right _ ha) hlinked
      · -- the numbers of the waits are distinct
        have hnodup := (List.nodup_cons.mp hsuspended.queue.nodup).1
        exact absurd (heq ▸ List.mem_map_of_mem ha) hnodup

/-- The four ways a poll of a wait goes on, and the waits that are left. -/
theorem wait {P : β → Prop} (hsource : w.source = some true)
    (h : c.Asleep ((waitersOf (some w)).map (side, ·) ++ as))
    (hsuspend : ∀ l d, Asleep { c with waiters := l } ((side, d) :: as) →
      P (suspend { c with waiters := l } ⟨some true, some d⟩)) (hready : P (ready c))
    (hcanceled : ∀ l, Asleep { c with waiters := l } as → P (canceled { c with waiters := l }))
    (hpanicked : ∀ l, Asleep { c with waiters := l } as → P (panicked { c with waiters := l })) :
    P (c.wait side aborted w suspend ready canceled panicked) :=
  await_rule hsource h.seen (fun _ d hs => hsuspend _ d (h.of_suspended hs)) (fun _ => hready)
    (fun _ hg => hcanceled _ (h.of_givenUp hg)) fun _ hg => hpanicked _ (h.of_givenUp hg)

/-- A wait that is dropped leaves the others. -/
theorem dropWait (hsource : w.source = some true)
    (h : c.Asleep ((waitersOf (some w)).map (side, ·) ++ as)) :
    Asleep (c.dropWait side w) as := by
  obtain ⟨source, waitData⟩ := w
  cases hsource
  cases waitData with
  | none => exact h
  | some d => exact h.of_givenUp h.seen.giveUp

end Asleep

/-! ## One poll -/

/-- The slot is as it was. -/
structure SameSlot (c c' : AsyncChannel α) : Prop where
  value : c'.value = c.value
  closed : c'.closed = c.closed

theorem SameSlot.refl (c : AsyncChannel α) : SameSlot c c := ⟨rfl, rfl⟩

/-- What holds at the place `k` of a `send` or `recv` that found the channel
`c`, with the waits `as` of all others. -/
structure Between (side : Side) (message : μ) (c : AsyncChannel α) (as : List (Side × Nat))
    (c' : AsyncChannel α) (k : Place μ) : Prop where
  same : SameSlot c c'
  message : k.message = message
  valid : k.Valid
  asleep : c'.Asleep (k.awaits side ++ as)

/-- What a `send` that returns has done. -/
def SentTo (c c' : AsyncChannel α) (message : α) : Sent α → Prop
  | .sent => c.value = none ∧ c.closed = false ∧ c'.value = some message
  | .unsent message' => message' = message ∧ c'.value = c.value
  | .panicked => c'.value = c.value

/-- What a `recv` that returns has done. -/
def TookFrom (c c' : AsyncChannel α) : Received α → Prop
  | .received message => c.value = some message ∧ c'.value = none
  | .failed .closed => c'.value = c.value ∧ c.value = none ∧ c.closed = true
  | .failed _ => c'.value = c.value
  | .panicked => c'.value = c.value

variable {c c' : AsyncChannel α} {as : List (Side × Nat)} {aborted : Bool}

/-- What `try_send` does, and when. -/
theorem trySend_spec (message : α) (h : c.Asleep as) :
    match c.trySend message with
    | (c', .ok ()) =>
      c.value = none ∧ c.closed = false ∧ c'.value = some message ∧ c'.Asleep as
    | (c', .error (.channelFull message')) =>
      c' = c ∧ message' = message ∧ c.value.isSome = true ∧ c.closed = false
    | (c', .error (.channelClosed message')) => c' = c ∧ message' = message ∧ c.closed = true := by
  obtain ⟨value, closed, l, count⟩ := c
  cases closed with
  | true => exact ⟨rfl, rfl, rfl⟩
  | false =>
    cases value with
    | none => exact ⟨rfl, rfl, rfl, h.wakeAll⟩
    | some value => exact ⟨rfl, rfl, rfl, rfl⟩

/-- What `try_recv` does, and when. -/
theorem tryRecv_spec (h : c.Asleep as) :
    match c.tryRecv with
    | (c', .ok (some message)) => c.value = some message ∧ c'.value = none ∧ c'.Asleep as
    | (c', .ok none) => c' = c ∧ c.value = none ∧ c.closed = false
    | (c', .error error) => c' = c ∧ error = .closed ∧ c.value = none ∧ c.closed = true := by
  obtain ⟨value, closed, l, count⟩ := c
  cases value with
  | some value => exact ⟨rfl, rfl, h.wakeAll⟩
  | none =>
    cases closed with
    | true => exact ⟨rfl, rfl, rfl, rfl⟩
    | false => exact ⟨rfl, rfl, rfl⟩

/-- One round of `send`. -/
theorem sendRound_ends (h : Between .send message c as c' k) :
    Resume.Ends (Between .send message c as) (Between .send message c as)
      (fun c' r => SentTo c c' message r ∧ c'.Asleep as) (c'.sendRound aborted () k) := by
  obtain ⟨hsame, rfl, hvalid, hasleep⟩ := h
  obtain ⟨message, wait⟩ := k
  have hkept (l : WaitList) : SameSlot c { c' with waiters := l } := ⟨hsame.value, hsame.closed⟩
  cases wait with
  | none =>
    have hsend := trySend_spec message hasleep
    unfold sendRound
    dsimp only
    split
    · next heq =>
      rw [heq] at hsend
      obtain ⟨hvalue, hclosed, hset, hleft⟩ := hsend
      exact ⟨⟨hsame.value.symm.trans hvalue, hsame.closed.symm.trans hclosed, hset⟩, hleft⟩
    · next heq =>
      rw [heq] at hsend
      obtain ⟨rfl, rfl, -⟩ := hsend
      refine ⟨hsame, rfl, ?_, hasleep⟩
      rintro w ⟨⟩
      rfl
    · next heq =>
      rw [heq] at hsend
      obtain ⟨rfl, rfl, -⟩ := hsend
      exact ⟨⟨rfl, hsame.value⟩, hasleep⟩
  | some w =>
    unfold sendRound
    refine Asleep.wait (hvalid w rfl) hasleep (fun l d hleft => ?_) ?_ (fun l hleft => ?_)
      fun l hleft => ?_
    · refine ⟨hkept l, rfl, ?_, hleft⟩
      rintro w ⟨⟩
      rfl
    · refine ⟨hsame, rfl, ?_, hasleep.leave⟩
      rintro w ⟨⟩
    · exact ⟨⟨rfl, hsame.value⟩, hleft⟩
    · exact ⟨hsame.value, hleft⟩

/-- One round of `recv`. -/
theorem recvRound_ends (h : Between .recv () c as c' k) :
    Resume.Ends (Between .recv () c as) (Between .recv () c as)
      (fun c' r => TookFrom c c' r ∧ c'.Asleep as) (c'.recvRound aborted () k) := by
  obtain ⟨hsame, -, hvalid, hasleep⟩ := h
  obtain ⟨⟨⟩, wait⟩ := k
  have hkept (l : WaitList) : SameSlot c { c' with waiters := l } := ⟨hsame.value, hsame.closed⟩
  cases wait with
  | none =>
    have hrecv := tryRecv_spec hasleep
    unfold recvRound
    dsimp only
    split
    · next heq =>
      rw [heq] at hrecv
      obtain ⟨hvalue, htaken, hleft⟩ := hrecv
      exact ⟨⟨hsame.value.symm.trans hvalue, htaken⟩, hleft⟩
    · next heq =>
      rw [heq] at hrecv
      obtain ⟨rfl, -⟩ := hrecv
      refine ⟨hsame, rfl, ?_, hasleep⟩
      rintro w ⟨⟩
      rfl
    · next heq =>
      rw [heq] at hrecv
      obtain ⟨rfl, rfl, hvalue, hclosed⟩ := hrecv
      exact ⟨⟨hsame.value, hsame.value.symm.trans hvalue, hsame.closed.symm.trans hclosed⟩, hasleep⟩
  | some w =>
    unfold recvRound
    refine Asleep.wait (hvalid w rfl) hasleep (fun l d hleft => ?_) ?_ (fun l hleft => ?_)
      fun l hleft => ?_
    · refine ⟨hkept l, rfl, ?_, hleft⟩
      rintro w ⟨⟩
      rfl
    · refine ⟨hsame, rfl, ?_, hasleep.leave⟩
      rintro w ⟨⟩
    · exact ⟨hsame.value, hleft⟩
    · exact ⟨hsame.value, hleft⟩

/-- **One poll** of a `send`. -/
theorem send_polled (hvalid : k.Valid) (h : c.Asleep (k.awaits .send ++ as))
    (hr : resume (sendRound aborted) rounds c k = some r) :
    Polled (Between .send k.message c as) (fun c' r => SentTo c c' k.message r ∧ c'.Asleep as) r :=
  resume_rule (fun _ _ _ hbetween => sendRound_ends hbetween) ⟨.refl c, rfl, hvalid, h⟩ hr

/-- **One poll** of a `recv`. -/
theorem recv_polled (hvalid : k.Valid) (h : c.Asleep (k.awaits .recv ++ as))
    (hr : resume (recvRound aborted) rounds c k = some r) :
    Polled (Between .recv () c as) (fun c' r => TookFrom c c' r ∧ c'.Asleep as) r :=
  resume_rule (fun _ _ _ hbetween => recvRound_ends hbetween) ⟨.refl c, rfl, hvalid, h⟩ hr

end AsyncChannel

/-! ## Every run -/

namespace SlotFuture

def awaits : SlotFuture α → List (Side × Nat)
  | .send k => k.awaits .send
  | .recv k => k.awaits .recv
  | .done => []

def Valid : SlotFuture α → Prop
  | .send k => k.Valid
  | .recv k => k.Valid
  | .done => True

end SlotFuture

namespace Slotting

open AsyncChannel

/-- How often a message is where a message can be: returned to its sender, in
the slot, received, or dropped. -/
def settled [DecidableEq α] (s : Slotting α) (a : α) : Nat :=
  s.returned.count a + s.chan.value.toList.count a + s.received.count a + s.dropped.count a

structure Inv (s : Slotting α) : Prop where
  owned : ∀ [DecidableEq α] (a : α),
    s.given.count a = (s.futures.flatMap SlotFuture.held).count a + s.settled a
  received : s.received <+: s.entered
  entered : s.freed = false → s.entered = s.received ++ s.chan.value.toList
  valid : ∀ f ∈ s.futures, f.Valid
  asleep : s.chan.Asleep (s.futures.flatMap SlotFuture.awaits)

variable {s s' : Slotting α} {i : Nat} {f f' : SlotFuture α}

theorem Inv.start : Inv (slotting α).start where
  owned := fun _ => rfl
  received := List.prefix_rfl
  entered := fun _ => rfl
  valid := by simp [slotting]
  asleep := ⟨Queue.withState false, by simp [slotting]⟩

/-- One future is replaced, and its message goes from one place to another. -/
theorem Inv.replace {chan : AsyncChannel α} {entered received returned dropped : List α}
    (h : s.Inv) (hf : s.futures[i]? = some f)
    (hmoved : ∀ [DecidableEq α] (a : α),
      f.held.count a + s.settled a = f'.held.count a + (returned.count a +
        chan.value.toList.count a + received.count a + dropped.count a))
    (hentered : entered = received ++ chan.value.toList) (hvalid : f'.Valid)
    (hasleep : ∀ as, s.chan.Asleep (f.awaits ++ as) → chan.Asleep (f'.awaits ++ as)) :
    Inv { s with
      chan
      futures := s.futures.set i f'
      entered
      received
      returned
      dropped } where
  owned := by
    intro _ a
    have hall := h.owned a
    have hset := count_flatMap_set hf SlotFuture.held f' a
    have hmoved := hmoved a
    show s.given.count a = ((s.futures.set i f').flatMap SlotFuture.held).count a +
      (returned.count a + chan.value.toList.count a + received.count a + dropped.count a)
    omega
  received := ⟨chan.value.toList, hentered.symm⟩
  entered := fun _ => hentered
  valid := by
    intro g hg
    rcases List.mem_or_eq_of_mem_set hg with hg | rfl
    · exact h.valid g hg
    · exact hvalid
  asleep := by
    obtain ⟨as, hold, hnew⟩ := exists_perm_flatMap_set hf SlotFuture.awaits
    exact (hasleep as (h.asleep.perm hold)).perm (hnew f').symm

/-- The waits of the other futures. -/
theorem Inv.others (h : s.Inv) (hf : s.futures[i]? = some f) :
    ∃ as, s.chan.Asleep (f.awaits ++ as) := by
  obtain ⟨as, hold, -⟩ := exists_perm_flatMap_set hf SlotFuture.awaits
  exact ⟨as, h.asleep.perm hold⟩

/-- The result of a poll of a `send` is handed over. -/
theorem Inv.polledSend (h : s.Inv)
    (hfreed : s.freed = false) (hf : s.futures[i]? = some (.send k))
    (hr : resume (sendRound aborted) rounds s.chan k = some r) :
    (s.polledSend i k.message r).Inv := by
  have hentered := h.entered hfreed
  have hpolled (as : List (Side × Nat)) (has : s.chan.Asleep (k.awaits .send ++ as)) :=
    send_polled (h.valid _ (List.mem_of_getElem? hf)) has hr
  obtain ⟨as, has⟩ := h.others hf
  have hsome := hpolled as has
  obtain ⟨chan, k' | r⟩ := r
  · have hvalue := hsome.same.value
    refine h.replace hf (fun a => ?_) (hentered.trans (by rw [hvalue])) hsome.valid
      fun as has => (hpolled as has).asleep
    rw [hvalue]
    simp [SlotFuture.held, settled, hsome.message]
  · have hleft (as : List (Side × Nat)) (has : s.chan.Asleep (k.awaits .send ++ as)) :
        chan.Asleep as := (hpolled as has).2
    have hsent := hsome.1
    cases r with
    | sent =>
      obtain ⟨hempty, -, hvalue⟩ := hsent
      refine h.replace hf (fun a => ?_) ?_ trivial hleft
      · simp [SlotFuture.held, settled, hempty, hvalue]
        omega
      · rw [hentered, hempty, hvalue]
        simp
    | unsent message =>
      obtain ⟨rfl, hvalue⟩ := hsent
      refine h.replace hf (fun a => ?_) (hentered.trans (by rw [hvalue])) trivial hleft
      simp [SlotFuture.held, settled, hvalue]
      omega
    | panicked =>
      have hvalue : chan.value = s.chan.value := hsent
      refine h.replace hf (fun a => ?_) (hentered.trans (by rw [hvalue])) trivial hleft
      simp [SlotFuture.held, settled, hvalue]
      omega

/-- The result of a poll of a `recv` is handed over. -/
theorem Inv.polledRecv (h : s.Inv)
    (hfreed : s.freed = false) (hf : s.futures[i]? = some (.recv k))
    (hr : resume (recvRound aborted) rounds s.chan k = some r) : (s.polledRecv i r).Inv := by
  have hentered := h.entered hfreed
  have hpolled (as : List (Side × Nat)) (has : s.chan.Asleep (k.awaits .recv ++ as)) :=
    recv_polled (h.valid _ (List.mem_of_getElem? hf)) has hr
  obtain ⟨as, has⟩ := h.others hf
  have hsome := hpolled as has
  obtain ⟨chan, k' | r⟩ := r
  · have hvalue := hsome.same.value
    refine h.replace hf (fun a => ?_) (hentered.trans (by rw [hvalue])) hsome.valid
      fun as has => (hpolled as has).asleep
    simp [SlotFuture.held, settled, hvalue]
  · have hleft (as : List (Side × Nat)) (has : s.chan.Asleep (k.awaits .recv ++ as)) :
        chan.Asleep as := (hpolled as has).2
    have htook := hsome.1
    have hkept (hvalue : chan.value = s.chan.value) :
        Inv { s with chan, futures := s.futures.set i .done } := by
      refine h.replace hf (fun a => ?_) (hentered.trans (by rw [hvalue])) trivial hleft
      simp [SlotFuture.held, settled, hvalue]
    cases r with
    | received message =>
      obtain ⟨hfull, hvalue⟩ := htook
      refine h.replace hf (fun a => ?_) ?_ trivial hleft
      · simp [SlotFuture.held, settled, hfull, hvalue]
        omega
      · rw [hentered, hfull, hvalue]
        simp
    | panicked => exact hkept htook
    | failed error =>
      cases error with
      | closed => exact hkept htook.1
      | canceled | timeout => exact hkept htook

/-- A future is dropped, with its message. -/
theorem Inv.dropFuture (h : s.Inv) (hfreed : s.freed = false) (hf : s.futures[i]? = some f) :
    (s.dropFuture i f).Inv := by
  have hvalid := h.valid f (List.mem_of_getElem? hf)
  have hmoved [DecidableEq α] (a : α) :
      f.held.count a + s.settled a = (SlotFuture.done : SlotFuture α).held.count a +
        (s.returned.count a + s.chan.value.toList.count a + s.received.count a +
          (s.dropped ++ f.held).count a) := by
    simp [SlotFuture.held, settled]
    omega
  match f with
  | .send ⟨_, none⟩ | .recv ⟨_, none⟩ | .done =>
    exact h.replace hf hmoved (h.entered hfreed) trivial fun as has => has
  | .send ⟨_, some w⟩ | .recv ⟨_, some w⟩ =>
    exact h.replace hf hmoved (h.entered hfreed) trivial fun as has => has.dropWait (hvalid w rfl)

/-- The channel is closed, or nothing is done to it. -/
theorem Inv.withChan (chan : AsyncChannel α) (h : s.Inv) (hvalue : chan.value = s.chan.value)
    (hasleep : chan.Asleep (s.futures.flatMap SlotFuture.awaits)) (senders : List Bool)
    (receiver : Bool) : Inv { s with chan, senders, receiver } where
  owned := by
    intro _ a
    have hall := h.owned a
    unfold settled at hall ⊢
    rwa [hvalue]
  received := h.received
  entered := fun hfreed => (h.entered hfreed).trans (by rw [hvalue])
  valid := h.valid
  asleep := hasleep

theorem Inv.decrementSenderCount (h : s.Inv) : s.chan.decrementSenderCount.value = s.chan.value ∧
      s.chan.decrementSenderCount.Asleep (s.futures.flatMap SlotFuture.awaits) := by
  unfold AsyncChannel.decrementSenderCount
  dsimp only
  split
  · exact ⟨rfl, h.asleep.wakeAll⟩
  · exact ⟨rfl, h.asleep.withSenderCount⟩

/-- A message is given to the channel, and is where it goes at once. -/
theorem Inv.give {chan : AsyncChannel α} {entered returned : List α} (h : s.Inv)
    (hmoved : ∀ [DecidableEq α] (a : α),
      [message].count a + (s.returned.count a + s.chan.value.toList.count a) =
        returned.count a + chan.value.toList.count a)
    (hentered : entered = s.received ++ chan.value.toList)
    (hasleep : chan.Asleep (s.futures.flatMap SlotFuture.awaits)) :
    Inv { s with chan, given := s.given ++ [message], entered, returned } where
  owned := by
    intro _ a
    have hall := h.owned a
    have hmoved := hmoved a
    unfold settled at hall ⊢
    dsimp only
    rw [List.count_append]
    omega
  received := ⟨chan.value.toList, hentered.symm⟩
  entered := fun _ => hentered
  valid := h.valid
  asleep := hasleep

/-- A message goes into the slot, or back to its sender. -/
theorem Inv.trySend (message : α) (h : s.Inv) (hfreed : s.freed = false)
    (hs : s.step (.trySend i message) = some s') : s'.Inv := by
  have hentered := h.entered hfreed
  have hsend := trySend_spec message h.asleep
  have hback : Inv { s with given := s.given ++ [message], returned := s.returned ++ [message] } := by
    refine h.give (fun a => ?_) hentered h.asleep
    simp
    omega
  obtain ⟨-, hs⟩ := Option.ite_none_right_eq_some.mp hs
  dsimp only at hs
  split at hs
  · next heq =>
    rw [heq] at hsend
    obtain ⟨hempty, -, hvalue, hleft⟩ := hsend
    cases hs
    refine h.give (fun a => ?_) ?_ hleft
    · simp [hempty, hvalue]
      omega
    · rw [hentered, hempty, hvalue]
      simp
  · next heq =>
    rw [heq] at hsend
    obtain ⟨rfl, rfl, -⟩ := hsend
    cases hs
    exact hback
  · next heq =>
    rw [heq] at hsend
    obtain ⟨rfl, rfl, -⟩ := hsend
    cases hs
    exact hback

/-- The message in the slot is received. -/
theorem Inv.tryRecv (h : s.Inv) (hfreed : s.freed = false) (hs : s.step .tryRecv = some s') :
    s'.Inv := by
  have hentered := h.entered hfreed
  have hrecv := tryRecv_spec h.asleep
  obtain ⟨-, hs⟩ := Option.ite_none_right_eq_some.mp hs
  split at hs
  · next chan message heq =>
    rw [heq] at hrecv
    obtain ⟨hfull, hvalue, hleft⟩ := hrecv
    cases hs
    have hentered : s.entered = (s.received ++ [message]) ++ [] := by
      rw [hentered, hfull]
      simp
    refine ⟨fun a => ?_, ⟨_, hentered.symm⟩, fun _ => ?_, h.valid, hleft⟩
    · have hall := h.owned a
      simp only [settled, hfull, hvalue, List.count_append] at hall ⊢
      simp at hall ⊢
      omega
    · rw [hvalue]
      exact hentered
  · next chan r hne heq =>
    cases hs
    rw [heq] at hrecv
    match r, hne, hrecv with
    | .ok none, _, hrecv | .error _, _, hrecv =>
      obtain ⟨rfl, -⟩ := hrecv
      exact h
    | .ok (some message), hne, _ => exact absurd rfl (hne message)

/-- A call makes a future that has not been polled. -/
theorem Inv.newFuture {given : List α} (h : s.Inv) (hgiven : given = s.given ++ f.held)
    (hvalid : f.Valid) (hawaits : f.awaits = []) :
    Inv { s with futures := s.futures ++ [f], given } where
  owned := by
    intro _ a
    have hall := h.owned a
    simp only [settled, hgiven, List.count_append, List.flatMap_append] at hall ⊢
    simp
    omega
  received := h.received
  entered := h.entered
  valid := by
    intro g hg
    rcases List.mem_append.mp hg with hg | hg
    · exact h.valid g hg
    · exact List.mem_singleton.mp hg ▸ hvalid
  asleep := by
    have hasleep := h.asleep
    simpa [hawaits] using hasleep

/-- Whatever a party does keeps the invariant. -/
theorem Inv.step (h : s.Inv) (hfreed : s.freed = false)
    (hs : s.step a = some s') : s'.Inv := by
  cases a with
  | send i message =>
    obtain ⟨-, rfl⟩ := Option.ite_some_none_eq_some.mp hs
    exact h.newFuture rfl (by rintro w ⟨⟩) rfl
  | trySend i message => exact h.trySend message hfreed hs
  | clone i =>
    obtain ⟨-, rfl⟩ := Option.ite_some_none_eq_some.mp hs
    exact h.withChan s.chan.incrementSenderCount rfl h.asleep.withSenderCount _ _
  | dropSender i =>
    obtain ⟨-, rfl⟩ := Option.ite_some_none_eq_some.mp hs
    obtain ⟨hvalue, hasleep⟩ := h.decrementSenderCount
    exact h.withChan _ hvalue hasleep _ _
  | recv =>
    obtain ⟨-, rfl⟩ := Option.ite_some_none_eq_some.mp hs
    exact h.newFuture (List.append_nil _).symm (by rintro w ⟨⟩) rfl
  | tryRecv => exact h.tryRecv hfreed hs
  | poll i aborted rounds =>
    obtain ⟨f, hf, hs⟩ := Option.bind_eq_some_iff.mp hs
    cases f with
    | send k =>
      obtain ⟨r, hr, rfl⟩ := Option.map_eq_some_iff.mp hs
      exact h.polledSend hfreed hf hr
    | recv k =>
      obtain ⟨r, hr, rfl⟩ := Option.map_eq_some_iff.mp hs
      exact h.polledRecv hfreed hf hr
    | done => cases hs
  | dropFuture i =>
    obtain ⟨f, hf, rfl⟩ := Option.map_eq_some_iff.mp hs
    exact h.dropFuture hfreed hf
  | dropReceiver =>
    obtain ⟨-, rfl⟩ := Option.ite_some_none_eq_some.mp hs
    exact h.withChan s.chan.close rfl h.asleep.wakeAll _ _
  | free =>
    obtain ⟨hunused, rfl⟩ := Option.ite_some_none_eq_some.mp hs
    refine ⟨fun a => ?_, h.received, by simp, h.valid, ?_⟩
    · have hall := h.owned a
      simp [settled] at hall ⊢
      omega
    · -- no future is left
      have hnone : s.futures.flatMap SlotFuture.awaits = [] := by
        rw [List.flatMap_eq_nil_iff]
        intro f hf
        have hdone := List.all_eq_true.mp hunused.2.2 f hf
        cases f <;> first | rfl | cases hdone
      have hqueue := h.asleep.queue
      rw [hnone] at hqueue ⊢
      exact ⟨hqueue, by simp⟩
  | cancelWait d =>
    cases hs
    exact h.withChan
      { s.chan with waiters := .ofEvent ((s.chan.waiters.toEvent false).cancelWait d) }
      rfl h.asleep.cancelWait _ _

theorem Inv.next (h : s.Inv) (hs : s.next a = some s') : s'.Inv := by
  obtain ⟨hfreed, hs⟩ := Option.ite_none_left_eq_some.mp hs
  exact h.step (Bool.eq_false_iff.mpr hfreed) hs

theorem inv_of_reaches (h : (slotting α).Reaches (fun _ _ => True) s) : s.Inv :=
  h.invariant (P := Inv) Inv.start fun _ _ _ hinv _ hs => hinv.next hs

/-- The future is pending on one side of the channel, linked, and has not been
woken since its last poll. -/
def sleeping (s : Slotting α) (side : Side) (f : SlotFuture α) : Prop :=
  ∃ d, (side, d) ∈ f.awaits ∧ d ∈ s.chan.waiters.waitingTasks ∧
    (s.chan.waiters.waits d).woken = false

/-- What senders and receivers can rely on. -/
structure Delivers (s : Slotting α) : Prop where
  /-- Every message is in exactly one place. -/
  owned : s.given.Perm (s.futures.flatMap SlotFuture.held ++ s.returned ++ s.chan.value.toList ++
    s.received ++ s.dropped)
  /-- The messages come out in the order in which they entered the slot. -/
  received : s.received <+: s.entered
  trySend : ∀ message, (s.chan.trySend message).2 = .ok () →
    s.chan.value = none ∧ s.chan.closed = false ∧ (s.chan.trySend message).1.value = some message
  send : ∀ k, SlotFuture.send k ∈ s.futures → ∀ aborted rounds chan,
    resume (AsyncChannel.sendRound aborted) rounds s.chan k = some (chan, .inr .sent) →
    s.chan.value = none ∧ s.chan.closed = false ∧ chan.value = some k.message
  tryRecv : s.chan.tryRecv.2 = .error .closed → s.chan.value = none ∧ s.chan.closed = true
  recv : ∀ k, SlotFuture.recv k ∈ s.futures → ∀ aborted rounds chan,
    resume (AsyncChannel.recvRound aborted) rounds s.chan k = some (chan, .inr (.failed .closed)) →
    s.chan.value = none ∧ s.chan.closed = true
  senders : s.chan.value = none ∨ s.chan.closed = true → ∀ f ∈ s.futures, ¬ s.sleeping .send f
  receivers : s.chan.value ≠ none ∨ s.chan.closed = true → ∀ f ∈ s.futures, ¬ s.sleeping .recv f

/-- A sleeping future waits for a state that the slot is not in. -/
theorem Inv.unmet_of_sleeping (h : s.Inv) (hf : f ∈ s.futures) (hsleeping : s.sleeping side f) :
    s.chan.isComplete side = false := by
  obtain ⟨d, hd, hlinked, -⟩ := hsleeping
  exact h.asleep.unmet (side, d) (List.mem_flatMap.mpr ⟨f, hf, hd⟩) hlinked

theorem Inv.delivers (h : s.Inv) : s.Delivers where
  owned := by
    classical
    rw [List.perm_iff_count]
    intro a
    have hall := h.owned a
    simp only [settled, List.count_append] at hall ⊢
    omega
  received := h.received
  trySend := by
    intro message hok
    have hsend := trySend_spec message h.asleep
    generalize s.chan.trySend message = r at hok hsend
    obtain ⟨chan, r⟩ := r
    obtain rfl : r = .ok () := hok
    exact ⟨hsend.1, hsend.2.1, hsend.2.2.1⟩
  send := by
    intro k hk aborted rounds chan hr
    obtain ⟨i, hi⟩ := List.mem_iff_getElem?.mp hk
    obtain ⟨as, has⟩ := h.others hi
    exact (send_polled (h.valid _ hk) has hr).1
  tryRecv := by
    intro hclosed
    have hrecv := tryRecv_spec h.asleep
    generalize s.chan.tryRecv = r at hclosed hrecv
    obtain ⟨chan, r⟩ := r
    obtain rfl : r = .error .closed := hclosed
    exact hrecv.2.2
  recv := by
    intro k hk aborted rounds chan hr
    obtain ⟨i, hi⟩ := List.mem_iff_getElem?.mp hk
    obtain ⟨as, has⟩ := h.others hi
    exact (recv_polled (h.valid _ hk) has hr).1.2
  senders := by
    intro hslot f hf hsleeping
    have hunmet := h.unmet_of_sleeping hf hsleeping
    rcases hslot with hslot | hslot <;> simp [isComplete, hslot] at hunmet
  receivers := by
    intro hslot f hf hsleeping
    have hunmet := h.unmet_of_sleeping hf hsleeping
    rcases hslot with hslot | hslot
    · simp [isComplete, Option.isSome_iff_ne_none.mpr hslot] at hunmet
    · simp [isComplete, hslot] at hunmet

end Slotting

/-- **The one-slot channel delivers**: in every run, whoever sends, receives,
cancels and drops, and in whatever order. -/
theorem slot_delivers (s : Slotting α) (h : (slotting α).Reaches (fun _ _ => True) s) :
    s.Delivers :=
  (Slotting.inv_of_reaches h).delivers

/-- A sender waits for the slot, is woken by a receiver and sends; a third
message is dropped with its future. -/
theorem slot_delivers_two : ∃ s, (slotting Nat).Reaches (fun _ _ => True) s ∧ s.given = [7, 8, 9] ∧
      s.received = [7] ∧ s.chan.value = some 8 ∧ s.dropped = [9] ∧ s.Delivers := by
  have hrun : (slotting Nat).run (slotting Nat).start
      [.trySend 0 7, .send 0 8, .poll 0 false 4, .send 0 9, .poll 1 false 4, .tryRecv,
        .poll 0 false 4, .dropFuture 1] = some _ := rfl
  have hreach := System.reaches_run hrun
  exact ⟨_, hreach, rfl, rfl, rfl, rfl, slot_delivers _ hreach⟩

end Kimojio.Channel
