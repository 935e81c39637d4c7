/-!
# Kimojio.Sync.AsyncEvent

`AsyncEvent` suspends tasks until it is set: the event with its `WaitList`,
and the `WaitFuture` that a task polls while it waits.

A `WaitData` is named by the number under which the event first saw it; it
is linked when its number is in `waitingTasks`. The trace events and the
fields that only they read are left out. A waker does nothing but schedule
its task, so that of a call to it only one thing is kept: `woken`, that the
waker was called after the future that owns the `WaitData` was last polled.
-/

namespace Kimojio.Sync

/-- The part of a `WaitData` that waiting depends on. -/
structure WaitData where
  canceled : Bool
  woken : Bool
  deriving DecidableEq, Repr

structure AsyncEvent where
  state : Bool
  waitingTasks : List Nat
  waits : Nat → WaitData
  /-- The number of the next `WaitData`. -/
  next : Nat

namespace AsyncEvent

/-- An event with nobody waiting. -/
def withState (state : Bool) : AsyncEvent where
  state := state
  waitingTasks := []
  waits := fun _ => ⟨false, false⟩
  next := 0

def new : AsyncEvent := withState false

def isSet (e : AsyncEvent) : Bool := e.state

def anyWaiting (e : AsyncEvent) : Bool := !e.waitingTasks.isEmpty

/-- Changes one `WaitData`. -/
def update (e : AsyncEvent) (d : Nat) (f : WaitData → WaitData) : AsyncEvent :=
  { e with waits := fun i => if i = d then f (e.waits i) else e.waits i }

/-- Calls the waker of a `WaitData`. -/
def wake (e : AsyncEvent) (d : Nat) : AsyncEvent :=
  e.update d fun data => { data with woken := true }

/-- `WaitData::set_waker`: from here on a call to the waker is a new one. -/
def setWaker (e : AsyncEvent) (d : Nat) : AsyncEvent :=
  e.update d fun data => { data with woken := false }

/-- A new `WaitData`, with the number `e.next`. -/
def newWaitData (e : AsyncEvent) : AsyncEvent where
  state := e.state
  waitingTasks := e.waitingTasks
  waits := fun i => if i = e.next then ⟨false, false⟩ else e.waits i
  next := e.next + 1

/-- `WaitList::wake_one`: fails when nobody waits. -/
def wakeOne (e : AsyncEvent) : Option AsyncEvent :=
  match e.waitingTasks with
  | [] => none
  | d :: rest => some ({ e with waitingTasks := rest }.wake d)

/-- Wakes the first `count` waiters, or all if there are fewer. -/
def wakeN : Nat → AsyncEvent → AsyncEvent
  | 0, e => e
  | count + 1, e =>
    match e.wakeOne with
    | some e => wakeN count e
    | none => e

/-- `while self.wake_one() {}`: every round unlinks one waiter. -/
def wakeAll (e : AsyncEvent) : AsyncEvent :=
  wakeN e.waitingTasks.length e

def set (e : AsyncEvent) : AsyncEvent :=
  { e with state := true }.wakeAll

def setWakeN (count : Nat) (e : AsyncEvent) : AsyncEvent :=
  wakeN count { e with state := true }

def setWakeOne (e : AsyncEvent) : AsyncEvent := e.setWakeN 1

/-- `reset` wakes the waiters too, which then wait again. -/
def reset (e : AsyncEvent) : AsyncEvent :=
  { e with state := false }.wakeAll

/-- `WaitList::register`. -/
def register (e : AsyncEvent) (d : Nat) : AsyncEvent :=
  if d ∈ e.waitingTasks then e else { e with waitingTasks := e.waitingTasks ++ [d] }

/-- `WaitList::unregister`. -/
def unregister (e : AsyncEvent) (d : Nat) : AsyncEvent :=
  if d ∈ e.waitingTasks then { e with waitingTasks := e.waitingTasks.erase d } else e

/-- What the exit or the cancellation of an `io_scope` does to a wait that
was polled in it. -/
def cancelWait (e : AsyncEvent) (d : Nat) : AsyncEvent :=
  (e.update d fun data => { data with canceled := true }).wake d

/-! ## What the operations leave -/

section

variable (e : AsyncEvent) (d : Nat) (f : WaitData → WaitData)

@[simp] theorem wake_waitingTasks : (e.wake d).waitingTasks = e.waitingTasks := rfl
@[simp] theorem cancelWait_state : (e.cancelWait d).state = e.state := rfl
@[simp] theorem setWaker_state : (e.setWaker d).state = e.state := rfl
@[simp] theorem newWaitData_state : e.newWaitData.state = e.state := rfl

@[simp] theorem register_state : (e.register d).state = e.state := by
  unfold register; split <;> rfl

@[simp] theorem register_next : (e.register d).next = e.next := by
  unfold register; split <;> rfl

@[simp] theorem register_waits : (e.register d).waits = e.waits := by
  unfold register; split <;> rfl

@[simp] theorem unregister_state : (e.unregister d).state = e.state := by
  unfold unregister; split <;> rfl

@[simp] theorem unregister_waits : (e.unregister d).waits = e.waits := by
  unfold unregister; split <;> rfl

theorem unregister_update : (e.update d f).unregister d = (e.unregister d).update d f := by
  by_cases hd : d ∈ e.waitingTasks <;> simp [unregister, update, hd]

theorem update_waits (i : Nat) :
    (e.update d f).waits i = if i = d then f (e.waits i) else e.waits i := rfl

theorem wake_woken (i : Nat) :
    ((e.wake d).waits i).woken = (decide (i = d) || (e.waits i).woken) := by
  unfold wake
  rw [update_waits]
  split <;> simp_all

end

section

variable {e : AsyncEvent} {d i : Nat}

theorem mem_register : i ∈ (e.register d).waitingTasks ↔ i ∈ e.waitingTasks ∨ i = d := by
  unfold register
  split
  · next hd => exact ⟨.inl, fun h => h.elim id fun heq => heq ▸ hd⟩
  · simp

theorem register_nodup (h : e.waitingTasks.Nodup) (d : Nat) :
    (e.register d).waitingTasks.Nodup := by
  unfold register
  split
  · exact h
  · next hd => grind [List.nodup_append]

theorem mem_unregister (h : e.waitingTasks.Nodup) :
    i ∈ (e.unregister d).waitingTasks ↔ i ∈ e.waitingTasks ∧ i ≠ d := by
  unfold unregister
  split
  · rw [h.mem_erase_iff, and_comm]
  · next hd => exact ⟨fun hi => ⟨hi, fun heq => hd (heq ▸ hi)⟩, And.left⟩

end

/-- Waking is unlinking from the front and calling the wakers, and cancels
nothing. -/
theorem wakeN_spec (count : Nat) (e : AsyncEvent) :
    (wakeN count e).state = e.state ∧ (wakeN count e).next = e.next ∧
      (wakeN count e).waitingTasks = e.waitingTasks.drop count ∧
      (∀ i, ((wakeN count e).waits i).woken =
        (decide (i ∈ e.waitingTasks.take count) || (e.waits i).woken)) ∧
      ∀ i, ((wakeN count e).waits i).canceled = (e.waits i).canceled := by
  induction count generalizing e with
  | zero => simp [wakeN]
  | succ count ih =>
    unfold wakeN wakeOne
    cases hw : e.waitingTasks with
    | nil => simp [hw]
    | cons d rest =>
      obtain ⟨hstate, hnext, hlinked, hwoken, hcanceled⟩ :=
        ih ({ e with waitingTasks := rest }.wake d)
      refine ⟨hstate, hnext, hlinked, fun i => ?_, fun i => (hcanceled i).trans ?_⟩
      · simp only [hwoken i, wake_woken, wake_waitingTasks]
        simp only [List.take_succ_cons, List.mem_cons, Bool.decide_or]
        ac_rfl
      · rw [wake, update_waits]
        split <;> rfl

section

variable (e : AsyncEvent)

@[simp] theorem wakeAll_state : e.wakeAll.state = e.state := (wakeN_spec _ e).1
@[simp] theorem wakeAll_next : e.wakeAll.next = e.next := (wakeN_spec _ e).2.1

@[simp] theorem wakeAll_waitingTasks : e.wakeAll.waitingTasks = [] := by
  rw [wakeAll, (wakeN_spec _ e).2.2.1, List.drop_length]

end

end AsyncEvent

/-- A `WaitFuture` for an event. Its source is the state that it waits for,
and is taken when the wait succeeds. -/
structure WaitFuture where
  source : Option Bool
  waitData : Option Nat
  deriving DecidableEq, Repr

/-- What a poll of a `WaitFuture` returns. -/
inductive WaitPoll where
  | pending
  | ready
  | canceled
  | panicked
  deriving DecidableEq, Repr

namespace WaitFuture

/-- The future of `wait` (`expected = true`) or `wait_reset`. -/
def new (expected : Bool) : WaitFuture := ⟨some expected, none⟩

/-- Takes the `WaitData` out; a wait that has not succeeded passes an
available notification on to the other waiters. -/
def unregisterCanceledWait (w : WaitFuture) (e : AsyncEvent) : AsyncEvent :=
  match w.waitData, w.source with
  | some d, some expected =>
    let e := e.unregister d
    if e.state = expected then e.wakeAll else e
  | _, _ => e

/-- `WaitFuture::poll`. `aborted` says whether the polling task is aborted. -/
def poll (aborted : Bool) (e : AsyncEvent) (w : WaitFuture) : AsyncEvent × WaitFuture × WaitPoll :=
  if w.waitData.any (fun d => (e.waits d).canceled) then
    let e := match w.waitData with
      | some d => e.update d fun data => { data with canceled := false }
      | none => e
    (w.unregisterCanceledWait e, { w with waitData := none }, .canceled)
  else if aborted then
    -- wakes everybody, as this waiter may be linked still, and panics
    (if w.source.isSome then e.wakeAll else e, w, .panicked)
  else
    match w.source with
    | none => (e, w, .panicked)
    | some expected =>
      if e.state = expected then (e, { w with source := none }, .ready)
      else
        match w.waitData with
        | some d => ((e.setWaker d).register d, w, .pending)
        | none => (e.newWaitData.register e.next, { w with waitData := some e.next }, .pending)

/-- `WaitFuture::drop`. -/
def drop (w : WaitFuture) (e : AsyncEvent) : AsyncEvent :=
  w.unregisterCanceledWait e

/-- Dropping an async function drops the wait in which it is suspended. -/
def dropSuspended (e : AsyncEvent) : Option WaitFuture → AsyncEvent
  | some w => w.drop e
  | none => e

end WaitFuture

/-- One poll of `event.wait().await?` in the middle of an async function: the
function is suspended in the wait, goes on behind it, or ends, in which case
the wait is dropped. -/
def await (aborted : Bool) (e : AsyncEvent) (w : WaitFuture)
    (suspend : AsyncEvent → WaitFuture → β) (ready canceled panicked : AsyncEvent → β) : β :=
  match w.poll aborted e with
  | (e, w, .pending) => suspend e w
  | (e, w, .ready) => ready (w.drop e)
  | (e, w, .canceled) => canceled (w.drop e)
  | (e, w, .panicked) => panicked (w.drop e)

end Kimojio.Sync
