import Kimojio.Transition
import Kimojio.Sync.Waiters

/-!
# Kimojio.Sync.AsyncReaderWriterLock

`AsyncReaderWriterLock` under any interleaving of `lock_read`, `lock_write`,
`upgrade`, polls, cancellations and drops of futures and guards.

The write event hands out one token, the free lock, as the event of an
`AsyncLock` does. The read event does not: a `WriteRef` that is dropped while
writers wait sets it and wakes no reader, so that the readers depend on a
writer, which wakes them when it gives up or drops its own guard.

The debug assertions of the source are the field `exclusive` of `Safe`.
-/

namespace Kimojio.Sync

structure AsyncReaderWriterLock where
  readers : Nat
  writer : Bool
  readEvent : AsyncEvent
  writeEvent : AsyncEvent

/-- What a poll of `lock_read`, `lock_write` or `upgrade` returns. -/
inductive RwPoll where
  | pending (wait : WaitFuture)
  | locked
  | canceled
  | panicked
  deriving DecidableEq, Repr

namespace AsyncReaderWriterLock

def new : AsyncReaderWriterLock := ⟨0, false, AsyncEvent.new.set, AsyncEvent.new.set⟩

/-- The scope guard `_wake_readers_on_cancel` of `lock_write`. -/
def wakeReadersOnCancel (lock : AsyncReaderWriterLock) : AsyncReaderWriterLock :=
  if !lock.writer then { lock with readEvent := lock.readEvent.set } else lock

/-- `self.write_event.wait().await?`, and then `k`. -/
def waitWrite (aborted : Bool) (k : AsyncReaderWriterLock → Option (AsyncReaderWriterLock × RwPoll))
    (lock : AsyncReaderWriterLock) (w : WaitFuture) : Option (AsyncReaderWriterLock × RwPoll) :=
  await aborted lock.writeEvent w (fun e w => some ({ lock with writeEvent := e }, .pending w))
    (fun e => k { lock with writeEvent := e })
    (fun e => some (wakeReadersOnCancel { lock with writeEvent := e }, .canceled))
    (fun e => some (wakeReadersOnCancel { lock with writeEvent := e }, .panicked))

/-- `lock_write` from the head of its loop. -/
def lockWriteLoop (aborted : Bool) :
    Nat → AsyncReaderWriterLock → Option (AsyncReaderWriterLock × RwPoll)
  | 0, _ => none
  | fuel + 1, lock =>
    if lock.readers > 0 || lock.writer then
      waitWrite aborted (lockWriteLoop aborted fuel) lock (.new true)
    else
      let lock : AsyncReaderWriterLock :=
        { lock with
          writer := true
          writeEvent := lock.writeEvent.reset
          readEvent := lock.readEvent.reset }
      some (lock.wakeReadersOnCancel, .locked)

/-- `self.read_event.wait().await?`, and then `k`. -/
def waitRead (aborted : Bool) (k : AsyncReaderWriterLock → Option (AsyncReaderWriterLock × RwPoll))
    (lock : AsyncReaderWriterLock) (w : WaitFuture) : Option (AsyncReaderWriterLock × RwPoll) :=
  await aborted lock.readEvent w (fun e w => some ({ lock with readEvent := e }, .pending w))
    (fun e => k { lock with readEvent := e })
    (fun e => some ({ lock with readEvent := e }, .canceled))
    (fun e => some ({ lock with readEvent := e }, .panicked))

/-- `lock_read` from the head of its loop. -/
def lockReadLoop (aborted : Bool) :
    Nat → AsyncReaderWriterLock → Option (AsyncReaderWriterLock × RwPoll)
  | 0, _ => none
  | fuel + 1, lock =>
    if lock.writer then waitRead aborted (lockReadLoop aborted fuel) lock (.new true)
    else
      some ({ lock with readers := lock.readers + 1, writeEvent := lock.writeEvent.reset },
        .locked)

/-- `WriteRef::drop`. -/
def dropWriteRef (lock : AsyncReaderWriterLock) : AsyncReaderWriterLock :=
  if lock.writeEvent.anyWaiting then
    { lock with
      writer := false
      writeEvent := lock.writeEvent.setWakeOne
      readEvent := lock.readEvent.setWakeN 0 }
  else
    { lock with
      writer := false
      writeEvent := lock.writeEvent.set
      readEvent := lock.readEvent.set }

/-- `ReadRef::drop`. -/
def dropReadRef (lock : AsyncReaderWriterLock) : AsyncReaderWriterLock :=
  let readers := lock.readers - 1
  { lock with
    readers
    writeEvent := if readers = 0 then lock.writeEvent.set else lock.writeEvent }

end AsyncReaderWriterLock

/-- The future of a call, with the wait in which it is suspended. An
`upgrade` that was never polled still owns its `ReadRef`. -/
inductive RwFuture where
  | read (wait : Option WaitFuture)
  | write (wait : Option WaitFuture)
  | upgrade (wait : Option WaitFuture)
  | done
  deriving DecidableEq, Repr

namespace RwFuture

open AsyncReaderWriterLock

def poll (aborted : Bool) (fuel : Nat) (lock : AsyncReaderWriterLock) :
    RwFuture → Option (AsyncReaderWriterLock × RwPoll)
  | .read none => lockReadLoop aborted fuel lock
  | .read (some w) => lock.waitRead aborted (lockReadLoop aborted fuel) w
  | .write none => lockWriteLoop aborted fuel lock
  | .write (some w) => lock.waitWrite aborted (lockWriteLoop aborted fuel) w
  | .upgrade none => lockWriteLoop aborted fuel lock.dropReadRef
  | .upgrade (some w) => lock.waitWrite aborted (lockWriteLoop aborted fuel) w
  | .done => none

def suspend (w : WaitFuture) : RwFuture → RwFuture
  | .read _ => .read (some w)
  | .write _ => .write (some w)
  | .upgrade _ => .upgrade (some w)
  | .done => .done

/-- The scope guard of `lock_write` exists once the future was polled. -/
def drop (lock : AsyncReaderWriterLock) : RwFuture → AsyncReaderWriterLock
  | .read wait => { lock with readEvent := WaitFuture.dropSuspended lock.readEvent wait }
  | .write none => lock
  | .upgrade none => lock.dropReadRef
  | .write (some w) | .upgrade (some w) =>
    wakeReadersOnCancel { lock with writeEvent := w.drop lock.writeEvent }
  | .done => lock

end RwFuture

/-- A lock in use: the live guards that are not owned by a future, and all the
futures. -/
structure RwLocking where
  lock : AsyncReaderWriterLock
  reads : Nat
  writes : Nat
  futures : List RwFuture

inductive RwLabel where
  | lockRead
  | lockWrite
  | upgrade
  | poll (future : Nat) (aborted : Bool) (fuel : Nat)
  | dropFuture (future : Nat)
  | dropReadRef
  | dropWriteRef
  | cancelRead (waitData : Nat)
  | cancelWrite (waitData : Nat)
  deriving DecidableEq, Repr

namespace RwLocking

/-- The result of a poll is handed to the caller. -/
def polled (s : RwLocking) (i : Nat) (f : RwFuture) : AsyncReaderWriterLock × RwPoll → RwLocking
  | (lock, .pending w) => { s with lock, futures := s.futures.set i (f.suspend w) }
  | (lock, .locked) =>
    match f with
    | .read _ => { s with lock, reads := s.reads + 1, futures := s.futures.set i .done }
    | _ => { s with lock, writes := s.writes + 1, futures := s.futures.set i .done }
  | (lock, .canceled) => { s with lock, futures := s.futures.set i .done }
  | (lock, .panicked) => { s with lock, futures := s.futures.set i .done }

def next (s : RwLocking) : RwLabel → Option RwLocking
  | .lockRead => some { s with futures := s.futures ++ [.read none] }
  | .lockWrite => some { s with futures := s.futures ++ [.write none] }
  | .upgrade =>
    match s.reads with
    | 0 => none
    | reads + 1 => some { s with reads, futures := s.futures ++ [.upgrade none] }
  | .poll i aborted fuel => do
    let f ← s.futures[i]?
    let r ← f.poll aborted fuel s.lock
    some (s.polled i f r)
  | .dropFuture i => do
    let f ← s.futures[i]?
    some { s with lock := f.drop s.lock, futures := s.futures.set i .done }
  | .dropReadRef =>
    match s.reads with
    | 0 => none
    | reads + 1 => some { s with lock := s.lock.dropReadRef, reads }
  | .dropWriteRef =>
    match s.writes with
    | 0 => none
    | writes + 1 => some { s with lock := s.lock.dropWriteRef, writes }
  | .cancelRead d =>
    some { s with lock := { s.lock with readEvent := s.lock.readEvent.cancelWait d } }
  | .cancelWrite d =>
    some { s with lock := { s.lock with writeEvent := s.lock.writeEvent.cancelWait d } }

end RwLocking

def rwLocking : System RwLocking RwLabel where
  start := ⟨.new, 0, 0, []⟩
  next := RwLocking.next

/-! ## The lock and its waiters -/

namespace AsyncReaderWriterLock

/-- The token of the write event: the lock, if no guard is live. -/
def free (lock : AsyncReaderWriterLock) : Nat :=
  if lock.readers = 0 ∧ lock.writer = false then 1 else 0

/-- A lock with the waiters `ws` of the write event and `rs` of the read
event. A reader that stays linked while nobody writes relies on a writer. -/
structure Ok (lock : AsyncReaderWriterLock) (ws rs : List Nat) : Prop where
  exclusive : lock.writer = true → lock.readers = 0
  write : Tokens lock.writeEvent ws lock.free
  read : Queue lock.readEvent rs
  read_set : lock.readEvent.state = !lock.writer
  relies : lock.writer = false → (∃ d ∈ rs, d ∈ lock.readEvent.waitingTasks) → ws ≠ []

variable {lock : AsyncReaderWriterLock} {ws rs : List Nat} {w : WaitFuture} {aborted : Bool}
  {cont : AsyncReaderWriterLock → Option (AsyncReaderWriterLock × RwPoll)}

theorem free_eq_zero (h : ¬ (lock.readers = 0 ∧ lock.writer = false)) : lock.free = 0 :=
  if_neg h

theorem tokens_free (hreaders : lock.readers = 0) (hwriter : lock.writer = false)
    (h : Tokens e ws 1) : Tokens e ws lock.free := by
  rw [free, if_pos ⟨hreaders, hwriter⟩]
  exact h

theorem tokens_taken (hlock : ¬ (lock.readers = 0 ∧ lock.writer = false)) (h : Tokens e ws 0) :
    Tokens e ws lock.free := by
  rw [free_eq_zero hlock]
  exact h

/-- Nobody reads or writes, or nobody is woken to write. -/
theorem blocked_iff : (decide (lock.readers > 0) || lock.writer) = true ↔
    ¬ (lock.readers = 0 ∧ lock.writer = false) := by
  cases lock.writer <;> simp
  omega

theorem Ok.of_unlinked (hexclusive : lock.writer = true → lock.readers = 0)
    (hwrite : Tokens lock.writeEvent ws lock.free) (hread : Queue lock.readEvent rs)
    (hset : lock.readEvent.state = !lock.writer) (hlinked : lock.readEvent.waitingTasks = []) :
    lock.Ok ws rs where
  exclusive := hexclusive
  write := hwrite
  read := hread
  read_set := hset
  relies := by
    rintro - ⟨d, -, hd⟩
    rw [hlinked] at hd
    cases hd

theorem wakeReadersOnCancel_eq (l : AsyncReaderWriterLock) (h : l.writer = true) :
    l.wakeReadersOnCancel = l := by
  simp [wakeReadersOnCancel, h]

theorem wakeReadersOnCancel_guards : lock.wakeReadersOnCancel.readers = lock.readers ∧
    lock.wakeReadersOnCancel.writer = lock.writer := by
  unfold wakeReadersOnCancel
  split <;> exact ⟨rfl, rfl⟩

/-- A writer that gives up wakes the readers. -/
theorem Ok.giveUpWrite {w : List Nat} (h : lock.Ok (w ++ ws) rs)
    (he : GivenUp lock.writeEvent w ws e) :
    (wakeReadersOnCancel { lock with writeEvent := e }).Ok ws rs := by
  have hwrite := he.tokens h.write
  by_cases hwriter : lock.writer = true
  · rw [wakeReadersOnCancel_eq { lock with writeEvent := e } hwriter]
    exact ⟨h.exclusive, hwrite, h.read, h.read_set, fun hfalse => by simp [hwriter] at hfalse⟩
  · rw [Bool.not_eq_true] at hwriter
    rw [wakeReadersOnCancel, if_pos (by rw [hwriter]; rfl)]
    refine .of_unlinked h.exclusive hwrite h.read.withStateField.wakeAll ?_ ?_
    · simp [AsyncEvent.set, hwriter]
    · simp [AsyncEvent.set]

/-- A poll by a writer keeps the lock for the waiters of the other futures. -/
def KeepsWrite (before : AsyncReaderWriterLock) (ws rs : List Nat) :
    AsyncReaderWriterLock × RwPoll → Prop
  | (lock, .pending w) => ∃ d, w = ⟨some true, some d⟩ ∧ lock.Ok (d :: ws) rs ∧
      lock.readers = before.readers ∧ lock.writer = before.writer
  | (lock, .locked) => before.readers = 0 ∧ before.writer = false ∧ lock.Ok ws rs ∧
      lock.readers = 0 ∧ lock.writer = true
  | (lock, _) => lock.Ok ws rs ∧ lock.readers = before.readers ∧ lock.writer = before.writer

/-- A poll by a reader keeps the lock for the waiters of the other futures. -/
def KeepsRead (before : AsyncReaderWriterLock) (ws rs : List Nat) :
    AsyncReaderWriterLock × RwPoll → Prop
  | (lock, .pending w) => ∃ d, w = ⟨some true, some d⟩ ∧ lock.Ok ws (d :: rs) ∧
      lock.readers = before.readers ∧ lock.writer = before.writer
  | (lock, .locked) => before.writer = false ∧ lock.Ok ws rs ∧
      lock.readers = before.readers + 1 ∧ lock.writer = false
  | (lock, _) => lock.Ok ws rs ∧ lock.readers = before.readers ∧ lock.writer = before.writer

theorem waitWrite_keeps (hsource : w.source = some true) (h : lock.Ok (w.waiters ++ ws) rs)
    (hcont : lock.writeEvent.state = true → Returns (lock.KeepsWrite ws rs) (cont lock)) :
    Returns (lock.KeepsWrite ws rs) (lock.waitWrite aborted cont w) := by
  refine await_rule hsource h.write.toQueue (fun e d hsuspended => .some ?_) hcont
    (fun e hgiven => .some ⟨h.giveUpWrite hgiven, wakeReadersOnCancel_guards⟩)
    (fun e hgiven => .some ⟨h.giveUpWrite hgiven, wakeReadersOnCancel_guards⟩)
  obtain ⟨hfree, htokens⟩ := hsuspended.tokens h.write
  refine ⟨d, rfl, ⟨h.exclusive, ?_, h.read, h.read_set, fun _ _ => by simp⟩, rfl, rfl⟩
  show Tokens e (d :: ws) lock.free
  rw [hfree]
  exact htokens

theorem lockWriteLoop_keeps (fuel : Nat) (h : lock.Ok (w.waiters ++ ws) rs)
    (hw : w.waiters = [] ∨ lock.writeEvent.state = true) :
    Returns (lock.KeepsWrite ws rs) (lockWriteLoop aborted fuel lock) := by
  cases fuel with
  | zero => exact .none
  | succ fuel =>
    unfold lockWriteLoop
    split
    · next hblocked =>
      have hset : ¬ lock.writeEvent.state = true := by
        rw [h.write.set_iff, free_eq_zero (blocked_iff.mp hblocked)]
        decide
      rw [hw.resolve_right hset] at h
      exact waitWrite_keeps rfl h fun hstate => absurd hstate hset
    · next hfree =>
      obtain ⟨hreaders, hwriter⟩ := Decidable.not_not.mp (mt blocked_iff.mpr hfree)
      dsimp only
      rw [wakeReadersOnCancel_eq _ rfl]
      refine .some ⟨hreaders, hwriter, .of_unlinked ?_ ?_ ?_ ?_ ?_, hreaders, rfl⟩
      · exact fun _ => hreaders
      · exact tokens_taken (by simp) (Tokens.reset h.write.toQueue.leaveWait)
      · exact h.read.withStateField.wakeAll
      · simp [AsyncEvent.reset]
      · simp [AsyncEvent.reset]

theorem Ok.giveUpRead (h : lock.Ok ws (r ++ rs)) (he : GivenUp lock.readEvent r rs e) :
    Ok { lock with readEvent := e } ws rs := by
  refine ⟨h.exclusive, h.write, he.queue, he.state.trans h.read_set, ?_⟩
  rintro hwriter ⟨d, -, hd⟩
  have hset : lock.readEvent.state = true := by
    rw [h.read_set]
    exact congrArg _ hwriter
  rw [he.passed hset] at hd
  cases hd

theorem waitRead_keeps (hsource : w.source = some true) (h : lock.Ok ws (w.waiters ++ rs))
    (hcont : lock.readEvent.state = true → Returns (lock.KeepsRead ws rs) (cont lock)) :
    Returns (lock.KeepsRead ws rs) (lock.waitRead aborted cont w) := by
  refine await_rule hsource h.read (fun e d hsuspended => .some ?_) hcont
    (fun e hgiven => .some ⟨h.giveUpRead hgiven, rfl, rfl⟩)
    (fun e hgiven => .some ⟨h.giveUpRead hgiven, rfl, rfl⟩)
  have hwriter : lock.writer = true := by
    have hset := h.read_set
    rw [hsuspended.unset] at hset
    cases hw : lock.writer with
    | true => rfl
    | false =>
      rw [hw] at hset
      cases hset
  refine ⟨d, rfl, ⟨h.exclusive, h.write, hsuspended.queue, ?_, ?_⟩, rfl, rfl⟩
  · rw [hsuspended.state]
    simp [hwriter]
  · simp [hwriter]

theorem lockReadLoop_keeps (fuel : Nat) (h : lock.Ok ws (w.waiters ++ rs))
    (hw : w.waiters = [] ∨ lock.readEvent.state = true) :
    Returns (lock.KeepsRead ws rs) (lockReadLoop aborted fuel lock) := by
  cases fuel with
  | zero => exact .none
  | succ fuel =>
    unfold lockReadLoop
    split
    · next hwriter =>
      have hset : ¬ lock.readEvent.state = true := by simp [h.read_set, hwriter]
      rw [hw.resolve_right hset] at h
      exact waitRead_keeps rfl h fun hstate => absurd hstate hset
    · next hwriter =>
      rw [Bool.not_eq_true] at hwriter
      refine .some ⟨hwriter, ⟨?_, ?_, h.read.leaveWait, h.read_set, ?_⟩, rfl, hwriter⟩
      · simp [hwriter]
      · exact tokens_taken (by simp) (Tokens.reset h.write.toQueue)
      · rintro hfalse ⟨d, hd, hlinked⟩
        exact h.relies hwriter ⟨d, List.mem_append_right _ hd, hlinked⟩

/-! ## The guards -/

theorem Ok.dropReadRef (h : lock.Ok ws rs) (hreaders : 0 < lock.readers) :
    lock.dropReadRef.Ok ws rs := by
  have hwriter : lock.writer = false := by
    cases hw : lock.writer with
    | true =>
      have := h.exclusive hw
      omega
    | false => rfl
  refine ⟨by simp [AsyncReaderWriterLock.dropReadRef, hwriter], ?_, h.read, h.read_set, h.relies⟩
  unfold AsyncReaderWriterLock.dropReadRef
  dsimp only
  split
  · next hlast =>
    exact tokens_free hlast hwriter (Tokens.set h.write.toQueue Nat.one_pos)
  · next hmore =>
    have hfree : lock.free = 0 := free_eq_zero (by omega)
    exact tokens_taken (by simp [hmore]) (hfree ▸ h.write)

theorem Ok.dropWriteRef (h : lock.Ok ws rs) (hwriter : lock.writer = true) :
    lock.dropWriteRef.Ok ws rs := by
  have hreaders := h.exclusive hwriter
  have hzero : lock.free = 0 := free_eq_zero (by simp [hwriter])
  have hwrite : Tokens lock.writeEvent ws 0 := hzero ▸ h.write
  unfold AsyncReaderWriterLock.dropWriteRef
  split
  · next hwaiting =>
    refine ⟨by simp, ?_, h.read.withStateField, rfl, fun _ _ => ?_⟩
    · exact tokens_free hreaders rfl hwrite.setWakeOne
    · -- the entry that is about to be woken belongs to a writer
      cases hlinked : lock.writeEvent.waitingTasks with
      | nil => simp [AsyncEvent.anyWaiting, hlinked] at hwaiting
      | cons d rest =>
        have hd : d ∈ ws := hwrite.clean rfl d (by simp [hlinked])
        exact List.ne_nil_of_mem hd
  · refine .of_unlinked (by simp) ?_ h.read.withStateField.wakeAll ?_ ?_
    · exact tokens_free hreaders rfl (Tokens.set hwrite.toQueue Nat.one_pos)
    · simp [AsyncEvent.set]
    · simp [AsyncEvent.set]

theorem Ok.perm (h : lock.Ok ws rs) (hws : ws.Perm ws') (hrs : rs.Perm rs') : lock.Ok ws' rs' where
  exclusive := h.exclusive
  write := h.write.perm hws
  read := h.read.perm hrs
  read_set := h.read_set
  relies := by
    rintro hwriter ⟨d, hd, hlinked⟩ rfl
    exact h.relies hwriter ⟨d, hrs.mem_iff.mpr hd, hlinked⟩ hws.eq_nil

end AsyncReaderWriterLock

namespace RwFuture

open AsyncReaderWriterLock

def wait : RwFuture → Option WaitFuture
  | .read wait | .write wait | .upgrade wait => wait
  | .done => none

/-- The waiter of the write event that a future is. -/
def writeWaiters : RwFuture → List Nat
  | .write wait | .upgrade wait => waitersOf wait
  | _ => []

/-- The waiter of the read event that a future is. -/
def readWaiters : RwFuture → List Nat
  | .read wait => waitersOf wait
  | _ => []

/-- The future owns a `ReadRef`. -/
def owns : RwFuture → Bool
  | .upgrade none => true
  | _ => false

variable {lock : AsyncReaderWriterLock} {ws rs : List Nat}

/-- The lock on which a poll of the future begins to run `lock_write` or
`lock_read`. -/
def begin (lock : AsyncReaderWriterLock) (f : RwFuture) : AsyncReaderWriterLock :=
  if f.owns then lock.dropReadRef else lock

theorem poll_read {wait : Option WaitFuture} (aborted : Bool) (fuel : Nat)
    (hwait : AwaitsSet wait) (h : lock.Ok ws (waitersOf wait ++ rs)) :
    Returns (lock.KeepsRead ws rs) (RwFuture.poll aborted fuel lock (.read wait)) := by
  cases wait with
  | none => exact lockReadLoop_keeps (w := .new true) fuel h (.inl rfl)
  | some w =>
    exact waitRead_keeps hwait.source h fun hset => lockReadLoop_keeps fuel h (.inr hset)

/-- The future of a `lock_write`, possibly inside an `upgrade`. -/
def writes : RwFuture → Bool
  | .write _ | .upgrade _ => true
  | _ => false

theorem poll_write {f : RwFuture} (aborted : Bool) (fuel : Nat) (hf : f.writes = true)
    (hwait : AwaitsSet f.wait) (hreaders : f.owns = true → 0 < lock.readers)
    (h : lock.Ok (f.writeWaiters ++ ws) rs) :
    Returns ((f.begin lock).KeepsWrite ws rs) (f.poll aborted fuel lock) := by
  have hsuspended (w : WaitFuture) (hw : w.source = some true) (h : lock.Ok (w.waiters ++ ws) rs) :
      Returns (lock.KeepsWrite ws rs) (lock.waitWrite aborted (lockWriteLoop aborted fuel) w) :=
    waitWrite_keeps hw h fun hset => lockWriteLoop_keeps fuel h (.inr hset)
  match f with
  | .write none => exact lockWriteLoop_keeps (w := .new true) fuel h (.inl rfl)
  | .write (some w) => exact hsuspended w hwait.source h
  | .upgrade none =>
    exact lockWriteLoop_keeps (w := .new true) fuel (h.dropReadRef (hreaders rfl)) (.inl rfl)
  | .upgrade (some w) => exact hsuspended w hwait.source h

/-- A future that is dropped leaves the lock to the other ones. -/
theorem drop_ok {f : RwFuture} (hwait : AwaitsSet f.wait)
    (hreaders : f.owns = true → 0 < lock.readers)
    (h : lock.Ok (f.writeWaiters ++ ws) (f.readWaiters ++ rs)) :
    (f.drop lock).Ok ws rs ∧ (f.drop lock).readers + f.owns.toNat = lock.readers ∧
      (f.drop lock).writer = lock.writer := by
  have hwrite (w : WaitFuture) (hwait : AwaitsSet (some w)) (h : lock.Ok (w.waiters ++ ws) rs) :
      (wakeReadersOnCancel { lock with writeEvent := w.drop lock.writeEvent }).Ok ws rs :=
    h.giveUpWrite (hwait.giveUp h.write.toQueue)
  match f with
  | .read none => exact ⟨h, rfl, rfl⟩
  | .read (some w) => exact ⟨h.giveUpRead (hwait.giveUp h.read), rfl, rfl⟩
  | .write none => exact ⟨h, rfl, rfl⟩
  | .write (some w) => exact ⟨hwrite w hwait h, wakeReadersOnCancel_guards⟩
  | .upgrade none =>
    refine ⟨h.dropReadRef (hreaders rfl), ?_, rfl⟩
    have := hreaders rfl
    exact Nat.sub_add_cancel this
  | .upgrade (some w) => exact ⟨hwrite w hwait h, wakeReadersOnCancel_guards⟩
  | .done => exact ⟨h, rfl, rfl⟩

end RwFuture

/-! ## Every run -/

namespace RwLocking

/-- The lock counts its guards, and its waiters are the pending futures. -/
structure Inv (s : RwLocking) : Prop where
  readers_eq : s.lock.readers = s.reads + s.futures.countP RwFuture.owns
  writes_eq : s.writes = s.lock.writer.toNat
  waits : ∀ f ∈ s.futures, AwaitsSet f.wait
  ok : s.lock.Ok (s.futures.flatMap RwFuture.writeWaiters) (s.futures.flatMap RwFuture.readWaiters)

variable {s : RwLocking}

theorem Inv.start : rwLocking.start.Inv where
  readers_eq := rfl
  writes_eq := rfl
  waits := by simp [rwLocking]
  ok := .of_unlinked (by simp [rwLocking, AsyncReaderWriterLock.new])
    (Tokens.set (Queue.withState false) Nat.one_pos)
    (Tokens.set (k := 1) (Queue.withState false) Nat.one_pos).toQueue rfl rfl

/-- One future is replaced, together with the lock and the guards. -/
theorem Inv.replace {lock : AsyncReaderWriterLock} {reads writes : Nat} (h : s.Inv)
    (hf : s.futures[i]? = some f) (hwait : AwaitsSet f'.wait)
    (hreaders : lock.readers + s.reads + f.owns.toNat = s.lock.readers + reads + f'.owns.toNat)
    (hwrites : writes = lock.writer.toNat)
    (hok : ∀ ws rs, s.lock.Ok (f.writeWaiters ++ ws) (f.readWaiters ++ rs) →
      lock.Ok (f'.writeWaiters ++ ws) (f'.readWaiters ++ rs)) :
    Inv ⟨lock, reads, writes, s.futures.set i f'⟩ where
  readers_eq := by
    have hset := countP_set_toNat hf RwFuture.owns f'
    have hold := h.readers_eq
    dsimp only
    omega
  writes_eq := hwrites
  waits := fun g hg => (List.mem_or_eq_of_mem_set hg).elim (h.waits g) fun heq => heq ▸ hwait
  ok := by
    obtain ⟨ws, hws, hws'⟩ := exists_perm_flatMap_set hf RwFuture.writeWaiters
    obtain ⟨rs, hrs, hrs'⟩ := exists_perm_flatMap_set hf RwFuture.readWaiters
    exact (hok ws rs (h.ok.perm hws hrs)).perm (hws' f').symm (hrs' f').symm

/-- An unpolled `upgrade` owns one of the `ReadRef`s. -/
theorem Inv.readers_pos {i : Nat} (h : s.Inv) (hf : s.futures[i]? = some f)
    (howns : f.owns = true) : 0 < s.lock.readers := by
  have hpos : 0 < s.futures.countP RwFuture.owns :=
    List.countP_pos_iff.mpr ⟨f, List.mem_of_getElem? hf, howns⟩
  have := h.readers_eq
  omega

theorem Inv.polledRead (h : s.Inv) (hf : s.futures[i]? = some (.read wait))
    (hr : RwFuture.poll aborted fuel s.lock (.read wait) = some r) :
    (s.polled i (.read wait) r).Inv := by
  have hwait : AwaitsSet wait := h.waits _ (List.mem_of_getElem? hf)
  have hkeeps (ws rs : List Nat) (hok : s.lock.Ok ws (waitersOf wait ++ rs)) :
      s.lock.KeepsRead ws rs r := RwFuture.poll_read aborted fuel hwait hok r hr
  obtain ⟨ws, hws, -⟩ := exists_perm_flatMap_set hf RwFuture.writeWaiters
  obtain ⟨rs, hrs, -⟩ := exists_perm_flatMap_set hf RwFuture.readWaiters
  have hsome := hkeeps ws rs (h.ok.perm hws hrs)
  have hwrites := h.writes_eq
  obtain ⟨lock, poll⟩ := r
  cases poll with
  | pending w =>
    obtain ⟨d, rfl, -, hreaders, hwriter⟩ := hsome
    refine h.replace hf .some (by rw [hreaders]; rfl) (by rw [hwriter, hwrites]) ?_
    intro ws rs hok
    obtain ⟨d', hd', hok', -⟩ := hkeeps ws rs hok
    cases hd'
    exact hok'
  | locked =>
    obtain ⟨hbefore, -, hreaders, hwriter⟩ := hsome
    refine h.replace hf .none ?_ ?_ fun ws rs hok => (hkeeps ws rs hok).2.1
    · rw [hreaders]
      simp only [RwFuture.owns, Bool.toNat_false]
      omega
    · rw [hwrites, hwriter, hbefore]
  | canceled | panicked =>
    obtain ⟨-, hreaders, hwriter⟩ := hsome
    exact h.replace hf .none (by rw [hreaders]; rfl) (by rw [hwriter, hwrites])
      fun ws rs hok => (hkeeps ws rs hok).1

end RwLocking

namespace RwFuture

/-- What the shape of a writer says about its waiters. -/
theorem suspend_write {f : RwFuture} (hf : f.writes = true) (d : Nat) :
    (f.suspend ⟨some true, some d⟩).wait = some ⟨some true, some d⟩ ∧
      (f.suspend ⟨some true, some d⟩).writeWaiters = [d] ∧
      (f.suspend ⟨some true, some d⟩).readWaiters = [] ∧
      (f.suspend ⟨some true, some d⟩).owns = false ∧ f.readWaiters = [] := by
  cases f with
  | read | done => cases hf
  | write | upgrade => exact ⟨rfl, rfl, rfl, rfl, rfl⟩

theorem begin_guards {f : RwFuture} (hreaders : f.owns = true → 0 < lock.readers) :
    (f.begin lock).readers + f.owns.toNat = lock.readers ∧ (f.begin lock).writer = lock.writer := by
  unfold begin
  cases howns : f.owns with
  | false => exact ⟨rfl, rfl⟩
  | true =>
    have := hreaders howns
    exact ⟨Nat.sub_add_cancel this, rfl⟩

end RwFuture

namespace RwLocking

variable {s : RwLocking}

theorem Inv.polledWrite
    (h : s.Inv) (hf : s.futures[i]? = some f) (hwrite : f.writes = true)
    (hr : f.poll aborted fuel s.lock = some r) : (s.polled i f r).Inv := by
  have hwait := h.waits _ (List.mem_of_getElem? hf)
  have hnil : f.readWaiters = [] := (RwFuture.suspend_write hwrite 0).2.2.2.2
  have hkeeps (ws rs : List Nat) (hok : s.lock.Ok (f.writeWaiters ++ ws) (f.readWaiters ++ rs)) :
      (f.begin s.lock).KeepsWrite ws rs r := by
    rw [hnil] at hok
    exact RwFuture.poll_write aborted fuel hwrite hwait (h.readers_pos hf) hok r hr
  obtain ⟨hbegin, hbegin'⟩ := RwFuture.begin_guards (h.readers_pos hf)
  obtain ⟨ws, hws, -⟩ := exists_perm_flatMap_set hf RwFuture.writeWaiters
  obtain ⟨rs, hrs, -⟩ := exists_perm_flatMap_set hf RwFuture.readWaiters
  have hsome := hkeeps ws rs (h.ok.perm hws hrs)
  have hwrites := h.writes_eq
  have hended {lock : AsyncReaderWriterLock} (hguards : lock.readers = (f.begin s.lock).readers ∧
        lock.writer = (f.begin s.lock).writer)
      (hok : ∀ ws rs, s.lock.Ok (f.writeWaiters ++ ws) (f.readWaiters ++ rs) → lock.Ok ws rs) :
      Inv { s with lock, futures := s.futures.set i .done } := by
    obtain ⟨hreaders, hwriter⟩ := hguards
    refine h.replace hf .none ?_ (by rw [hwriter, hbegin', hwrites]) hok
    have hdone : RwFuture.done.owns.toNat = 0 := rfl
    omega
  obtain ⟨lock, poll⟩ := r
  cases poll with
  | pending w =>
    obtain ⟨d, rfl, -, hreaders, hwriter⟩ := hsome
    obtain ⟨hwait', hws', hrs', howns', -⟩ := RwFuture.suspend_write hwrite d
    refine h.replace hf (by rw [hwait']; exact .some) ?_ (by rw [hwriter, hbegin', hwrites]) ?_
    · rw [hreaders, howns']
      simp only [Bool.toNat_false]
      omega
    · intro ws rs hok
      obtain ⟨d', hd', hok', -⟩ := hkeeps ws rs hok
      cases hd'
      rw [hws', hrs']
      exact hok'
  | locked =>
    obtain ⟨hfree, hfree', -, hreaders, hwriter⟩ := hsome
    have hpolled : s.polled i f (lock, .locked) =
        { s with lock, writes := s.writes + 1, futures := s.futures.set i .done } := by
      cases f with
      | read wait => cases hwrite
      | write | upgrade | done => rfl
    rw [hpolled]
    refine h.replace hf .none ?_ ?_ fun ws rs hok => (hkeeps ws rs hok).2.2.1
    · have hdone : RwFuture.done.owns.toNat = 0 := rfl
      omega
    · rw [hwrites, hwriter, ← hbegin', hfree']
      rfl
  | canceled | panicked => exact hended hsome.2 fun ws rs hok => (hkeeps ws rs hok).1

theorem Inv.push {reads : Nat} (h : s.Inv) (hf : f.wait = none)
    (hreads : reads + f.owns.toNat = s.reads) :
    Inv { s with reads, futures := s.futures ++ [f] } where
  readers_eq := by
    have := h.readers_eq
    cases howns : f.owns <;> simp_all
    omega
  writes_eq := h.writes_eq
  waits := by
    intro g hg
    rcases List.mem_append.mp hg with hg | hg
    · exact h.waits g hg
    · obtain rfl := List.mem_singleton.mp hg
      rw [hf]
      exact .none
  ok := by
    have hwaiters : f.writeWaiters = [] ∧ f.readWaiters = [] := by
      cases f <;> simp_all [RwFuture.wait, RwFuture.writeWaiters, RwFuture.readWaiters, waitersOf]
    have hok := h.ok
    simpa [hwaiters] using hok

theorem Inv.next (h : s.Inv) (hs : s.next a = some s') : s'.Inv := by
  cases a with
  | lockRead | lockWrite =>
    cases hs
    exact h.push rfl rfl
  | upgrade =>
    rw [RwLocking.next] at hs
    split at hs
    · cases hs
    · next reads hreads =>
      cases hs
      exact h.push rfl hreads.symm
  | poll i aborted fuel =>
    obtain ⟨f, hf, hs⟩ := Option.bind_eq_some_iff.mp hs
    obtain ⟨r, hr, hs⟩ := Option.bind_eq_some_iff.mp hs
    cases hs
    cases f with
    | read wait => exact h.polledRead hf hr
    | write | upgrade => exact h.polledWrite hf rfl hr
    | done => cases hr
  | dropFuture i =>
    obtain ⟨f, hf, hs⟩ := Option.bind_eq_some_iff.mp hs
    cases hs
    have hdrop (ws rs : List Nat) (hok : s.lock.Ok (f.writeWaiters ++ ws) (f.readWaiters ++ rs)) :
        (f.drop s.lock).Ok ws rs ∧ (f.drop s.lock).readers + f.owns.toNat = s.lock.readers ∧
          (f.drop s.lock).writer = s.lock.writer :=
      RwFuture.drop_ok (h.waits _ (List.mem_of_getElem? hf)) (h.readers_pos hf) hok
    obtain ⟨ws, hws, -⟩ := exists_perm_flatMap_set hf RwFuture.writeWaiters
    obtain ⟨rs, hrs, -⟩ := exists_perm_flatMap_set hf RwFuture.readWaiters
    obtain ⟨-, hreaders, hwriter⟩ := hdrop ws rs (h.ok.perm hws hrs)
    have hdone : RwFuture.done.owns.toNat = 0 := rfl
    exact h.replace hf .none (by omega) (by rw [hwriter, h.writes_eq])
      fun ws rs hok => (hdrop ws rs hok).1
  | dropReadRef =>
    rw [RwLocking.next] at hs
    split at hs
    · cases hs
    · next reads hreads =>
      cases hs
      have hold := h.readers_eq
      refine ⟨?_, h.writes_eq, h.waits, h.ok.dropReadRef (by omega)⟩
      show s.lock.readers - 1 = _
      dsimp only
      omega
  | dropWriteRef =>
    rw [RwLocking.next] at hs
    split at hs
    · cases hs
    · next writes hwrites =>
      cases hs
      have hold := h.writes_eq
      have hwriter : s.lock.writer = true := by
        cases hw : s.lock.writer with
        | true => rfl
        | false =>
          rw [hw] at hold
          simp [hwrites] at hold
      have hguards : s.lock.dropWriteRef.readers = s.lock.readers ∧
          s.lock.dropWriteRef.writer = false := by
        unfold AsyncReaderWriterLock.dropWriteRef
        split <;> exact ⟨rfl, rfl⟩
      refine ⟨hguards.1.trans h.readers_eq, ?_, h.waits, h.ok.dropWriteRef hwriter⟩
      rw [hwrites, hwriter] at hold
      rw [hguards.2]
      exact Nat.succ.inj hold
  | cancelRead d =>
    cases hs
    exact ⟨h.readers_eq, h.writes_eq, h.waits,
      ⟨h.ok.exclusive, h.ok.write, h.ok.read.cancelWait, h.ok.read_set, h.ok.relies⟩⟩
  | cancelWrite d =>
    cases hs
    exact ⟨h.readers_eq, h.writes_eq, h.waits,
      ⟨h.ok.exclusive, h.ok.write.cancelWait, h.ok.read, h.ok.read_set, h.ok.relies⟩⟩

/-- The live `ReadRef`s. -/
def readRefs (s : RwLocking) : Nat := s.reads + s.futures.countP RwFuture.owns

end RwLocking

/-- A `lock_write` that was polled and has not returned. -/
def RwFuture.PendingWrite (f : RwFuture) : Prop := f.writes = true ∧ f.wait ≠ none

/-- The lock counts its guards and a writer excludes all others; the events
say whether it can be taken; a writer that is linked while no guard is live
will be woken by another one; and a reader that is linked while nobody writes
relies on a pending writer. -/
structure RwLocking.Safe (s : RwLocking) : Prop where
  readers_eq : s.lock.readers = s.readRefs
  writer_iff : s.lock.writer = true ↔ 0 < s.writes
  exclusive : 0 < s.writes → s.writes = 1 ∧ s.readRefs = 0
  write_set : s.lock.writeEvent.isSet = true ↔ s.readRefs = 0 ∧ s.writes = 0
  read_set : s.lock.readEvent.isSet = true ↔ s.writes = 0
  writers : s.readRefs = 0 → s.writes = 0 → ∀ (i : Nat) (f : RwFuture), s.futures[i]? = some f →
    Linked s.lock.writeEvent f.writeWaiters → ¬ Woken s.lock.writeEvent f.writeWaiters →
    ∃ (j : Nat) (g : RwFuture), j ≠ i ∧ s.futures[j]? = some g ∧
      Woken s.lock.writeEvent g.writeWaiters
  readers : s.writes = 0 → (∃ f ∈ s.futures, Linked s.lock.readEvent f.readWaiters ∧
      ¬ Woken s.lock.readEvent f.readWaiters) →
    ∃ g ∈ s.futures, g.PendingWrite

theorem RwFuture.pendingWrite_of_mem {f : RwFuture} (h : d ∈ f.writeWaiters) : f.PendingWrite := by
  match f with
  | .write none => cases h
  | .write (some w) => exact ⟨rfl, by simp [RwFuture.wait]⟩
  | .upgrade none => cases h
  | .upgrade (some w) => exact ⟨rfl, by simp [RwFuture.wait]⟩

theorem RwLocking.Inv.safe {s : RwLocking} (h : s.Inv) : s.Safe := by
  have hreaders : s.lock.readers = s.readRefs := h.readers_eq
  have hwrites := h.writes_eq
  have hwriter : s.lock.writer = false ↔ s.writes = 0 := by
    rw [hwrites]
    cases s.lock.writer <;> simp
  have hok := h.ok
  constructor
  · exact hreaders
  · rw [hwrites]
    cases s.lock.writer <;> simp
  · intro hpos
    cases hw : s.lock.writer with
    | false =>
      rw [hw] at hwrites
      simp [hwrites] at hpos
    | true =>
      rw [hw] at hwrites
      exact ⟨hwrites, hreaders ▸ hok.exclusive hw⟩
  · rw [AsyncEvent.isSet, hok.write.set_iff, ← hreaders, ← hwriter, AsyncReaderWriterLock.free]
    split
    · next hfree => simp [hfree]
    · next htaken => simp [htaken]
  · rw [AsyncEvent.isSet, hok.read_set, ← hwriter]
    cases s.lock.writer <;> simp
  · intro hreads hwrites' i f hf hlinked hwoken
    have htokens := hok.write
    rw [AsyncReaderWriterLock.free, if_pos ⟨hreaders.trans hreads, hwriter.mpr hwrites'⟩] at htokens
    exact htokens.exists_woken hf hlinked hwoken
  · rintro hwrites' ⟨f, hf, ⟨d, hd, hlinked⟩, -⟩
    have hrelies := hok.relies (hwriter.mpr hwrites') ⟨d, List.mem_flatMap.mpr ⟨f, hf, hd⟩, hlinked⟩
    obtain ⟨d', hd'⟩ := List.exists_mem_of_ne_nil _ hrelies
    obtain ⟨g, hg, hd'⟩ := List.mem_flatMap.mp hd'
    exact ⟨g, hg, RwFuture.pendingWrite_of_mem hd'⟩

/-- **The reader-writer lock is safe in every run.** -/
theorem rwLocking_safe {s : RwLocking} (h : rwLocking.Reaches (fun _ _ => True) s) : s.Safe := by
  refine RwLocking.Inv.safe (h.invariant RwLocking.Inv.start ?_)
  exact fun s a s' hinv _ hs => hinv.next hs

/-- A writer waits for a guard, and then a reader; the guard is dropped, and
the reader relies on the writer, which a second reader overtakes. -/
theorem rwLocking_safe_overtaken :
    ∃ s : RwLocking, s.readRefs = 1 ∧ s.lock.readEvent.waitingTasks = [0] ∧ s.Safe := by
  have hrun : rwLocking.run rwLocking.start
      [.lockWrite, .poll 0 false 1, .lockWrite, .poll 1 false 1, .lockRead, .poll 2 false 1,
        .dropWriteRef, .lockRead, .poll 3 false 1, .poll 1 false 1] = some _ := rfl
  exact ⟨_, rfl, rfl, rwLocking_safe (System.reaches_run hrun)⟩

end Kimojio.Sync
