import Kimojio.Coroutine
import Kimojio.Sync.Waiters

/-!
# Kimojio.Sync.TimedWait

`wait_with_deadline`, round by round. What a round does to an event follows from
what the polls and drops of its wait do (`WaitRule.ends`), whatever is known of
the event: here for one that is changed by `set` and `reset` only, and for the
state of any event.

While an event that is only set and reset is set, nobody is linked (`Calm`), so
that a function that waits for it goes on at its next poll.
-/

namespace Kimojio.Sync

/-- What the environment answers in one round of `wait_with_deadline`: whether
time remains, and how the two branches of the `select!` are polled. A timer
that is done ran out or was canceled; it may also panic, because its task is
aborted. -/
structure Round where
  remaining : Bool
  sleepFirst : Bool
  sleep : Option Bool
  sleepPanics : Bool
  deriving DecidableEq, Repr

/-- A place in `wait_with_deadline`: the head of its loop, or the wait. -/
inductive TimedWait where
  | head
  | wait (w : WaitFuture)
  deriving DecidableEq, Repr

/-- The end of `wait_with_deadline`. -/
inductive Waited where
  | ok
  | canceled
  | timeout
  | panicked
  deriving DecidableEq, Repr

namespace AsyncEvent

/-- A poll of the timer of the `select!`, whose other branch is the wait `w`.
If it is done, `w` is dropped. -/
def pollSleep (round : Round) (e : AsyncEvent) (w : WaitFuture)
    (pending : AsyncEvent × Resume TimedWait Waited) : AsyncEvent × Resume TimedWait Waited :=
  if round.sleepPanics then (w.drop e, .ret .panicked)
  else
    match round.sleep with
    | none => pending
    | some true => (w.drop e, .ret .canceled)
    | some false => (w.drop e, .goto .head)

/-- The `select!`, which polls its branches in any order. -/
def selectRound (aborted : Bool) (round : Round) (e : AsyncEvent) (w : WaitFuture) :
    AsyncEvent × Resume TimedWait Waited :=
  let pollWait (suspend : AsyncEvent → WaitFuture → AsyncEvent × Resume TimedWait Waited) :=
    await aborted e w suspend (fun e => (e, .goto .head))
      (fun e => (e, .ret .canceled)) (fun e => (e, .ret .panicked))
  if round.sleepFirst then pollSleep round e w (pollWait fun e w => (e, .suspend (.wait w)))
  else pollWait fun e w => pollSleep round e w (e, .suspend (.wait w))

/-- One round of `wait_with_deadline`; without a deadline it is `wait`. -/
def waitRound (deadline aborted : Bool) (round : Round) (e : AsyncEvent) :
    TimedWait → AsyncEvent × Resume TimedWait Waited
  | .head =>
    if !deadline then (e, .goto (.wait (.new true)))
    else if e.isSet then (e, .ret .ok)
    else if round.remaining then (e, .goto (.wait (.new true)))
    else (e, .ret .timeout)
  | .wait w =>
    if deadline then selectRound aborted round e w
    else
      await aborted e w (fun e w => (e, .suspend (.wait w))) (fun e => (e, .ret .ok))
        (fun e => (e, .ret .canceled)) (fun e => (e, .ret .panicked))

end AsyncEvent

namespace TimedWait

def waiters : TimedWait → List Nat
  | .head => []
  | .wait w => w.waiters

/-- The wait in which the function is suspended. -/
def suspended : TimedWait → Option WaitFuture
  | .head => none
  | .wait w => some w

/-- Drops the function where it is. -/
def drop (e : AsyncEvent) (t : TimedWait) : AsyncEvent :=
  WaitFuture.dropSuspended e t.suspended

/-- The wait, if there is one, waits for the event to be set. -/
def Valid : TimedWait → Prop
  | .head => True
  | .wait w => w.source = some true

/-- Rounds that are left while the event is set. -/
def left (deadline : Bool) : TimedWait → Nat
  | .head => if deadline then 0 else 1
  | .wait _ => if deadline then 1 else 0

end TimedWait

/-! ## The rule of a round -/

/-- What has to be known of an event for a round of `wait_with_deadline`: `goes`
at the places of the function, `suspends` where it is suspended, and `returns` at
its end. The function waits with an entry of its own only, so that it is enough to
know what a poll and a drop of that wait do. -/
structure WaitRule (deadline : Bool) (goes suspends : AsyncEvent → TimedWait → Prop)
    (returns : AsyncEvent → Waited → Prop) : Prop where
  fresh : ∀ {e}, goes e .head → (deadline = true → e.state = false) → goes e (.wait (.new true))
  ok : ∀ {e}, goes e .head → e.state = true → returns e .ok
  timeout : ∀ {e}, goes e .head → e.state = false → returns e .timeout
  dropped : ∀ {e w}, goes e (.wait w) → goes (w.drop e) .head ∧
    returns (w.drop e) .canceled ∧ returns (w.drop e) .panicked
  poll : ∀ {e w aborted suspend ready canceled panicked}
    {P : AsyncEvent × Resume TimedWait Waited → Prop}, goes e (.wait w) →
    (∀ e' w', goes e' (.wait w') → suspends e' (.wait w') → P (suspend e' w')) →
    (∀ e', (deadline = true → goes e' .head) → returns e' .ok → P (ready e')) →
    (∀ e', returns e' .canceled → P (canceled e')) →
    (∀ e', returns e' .panicked → P (panicked e')) →
    P (await aborted e w suspend ready canceled panicked)

/-- From the wait the function goes on at the head of its loop, if it goes on at all. -/
def FromWait (deadline : Bool) (goes : AsyncEvent → TimedWait → Prop) (e : AsyncEvent)
    (t : TimedWait) : Prop :=
  deadline = true ∧ t = .head ∧ goes e t

namespace WaitRule

variable {goes suspends : AsyncEvent → TimedWait → Prop} {returns : AsyncEvent → Waited → Prop}
  {e : AsyncEvent} {w : WaitFuture} {t : TimedWait} {deadline aborted : Bool} {round : Round}
  (h : WaitRule deadline goes suspends returns)
include h

theorem pollSleep (hdeadline : deadline = true) (hgoes : goes e (.wait w))
    (hpending : Resume.Ends (FromWait deadline goes) suspends returns pending) :
    Resume.Ends (FromWait deadline goes) suspends returns (e.pollSleep round w pending) := by
  obtain ⟨hhead, hcanceled, hpanicked⟩ := h.dropped hgoes
  unfold AsyncEvent.pollSleep
  split
  · exact hpanicked
  · split
    · exact hpending
    · exact hcanceled
    · exact ⟨hdeadline, rfl, hhead⟩

theorem wait_ends (hgoes : goes e (.wait w)) : Resume.Ends (FromWait deadline goes) suspends returns
    (e.waitRound deadline aborted round (.wait w)) := by
  unfold AsyncEvent.waitRound
  dsimp only
  split
  · next hdeadline =>
    unfold AsyncEvent.selectRound
    split
    · refine h.pollSleep hdeadline hgoes (h.poll hgoes ?_
        (fun e' hhead _ => ⟨hdeadline, rfl, hhead hdeadline⟩) (fun _ hr => hr) fun _ hr => hr)
      exact fun e' w' _ hsuspends => hsuspends
    · refine h.poll hgoes ?_ (fun e' hhead _ => ⟨hdeadline, rfl, hhead hdeadline⟩)
        (fun _ hr => hr) fun _ hr => hr
      exact fun e' w' hgoes' hsuspends => h.pollSleep hdeadline hgoes' hsuspends
  · refine h.poll hgoes ?_ (fun e' _ hok => hok) (fun _ hr => hr) fun _ hr => hr
    exact fun e' w' _ hsuspends => hsuspends

/-- **One round** of `wait_with_deadline`. -/
theorem ends (hgoes : goes e t) :
    Resume.Ends goes suspends returns (e.waitRound deadline aborted round t) := by
  cases t with
  | head =>
    unfold AsyncEvent.waitRound
    dsimp only
    split
    · next hnone => exact h.fresh hgoes fun hdeadline => by simp [hdeadline] at hnone
    · split
      · next hset => exact h.ok hgoes hset
      · next hset =>
        have hunset : e.state = false := Bool.eq_false_iff.mpr hset
        split
        · exact h.fresh hgoes fun _ => hunset
        · exact h.timeout hgoes hunset
  | wait w =>
    exact (h.wait_ends hgoes).imp (fun _ _ hhead => hhead.2.2) (fun _ _ hs => hs) fun _ _ hr => hr

end WaitRule

/-! ## Events that are only set and reset -/

/-- The waiters `ws` of an event that is changed by `set` and `reset` only. -/
structure Calm (e : AsyncEvent) (ws : List Nat) : Prop extends Queue e ws where
  unlinked : e.state = true → e.waitingTasks = []

section

variable {e e' : AsyncEvent} {w ws : List Nat} {d : Nat}

theorem GivenUp.calm (h : GivenUp e w ws e') : Calm e' ws where
  toQueue := h.queue
  unlinked := fun hset => h.passed (h.state ▸ hset)

theorem Suspended.calm (h : Suspended e w ws e' d) : Calm e' (d :: ws) where
  toQueue := h.queue
  unlinked := fun hset => absurd (h.state.symm.trans hset) (by decide)

namespace Calm

theorem of_unlinked (h : Queue e ws) (hlinked : e.waitingTasks = []) : Calm e ws where
  toQueue := h
  unlinked := fun _ => hlinked

theorem withState (state : Bool) : Calm (.withState state) [] :=
  of_unlinked (Queue.withState _) rfl

theorem set (h : Calm e ws) : Calm e.set ws :=
  of_unlinked h.toQueue.withStateField.wakeAll (by simp [AsyncEvent.set])

theorem reset (h : Calm e ws) : Calm e.reset ws :=
  of_unlinked h.toQueue.withStateField.wakeAll (by simp [AsyncEvent.reset])

theorem cancelWait (h : Calm e ws) : Calm (e.cancelWait d) ws where
  toQueue := h.toQueue.cancelWait
  unlinked := h.unlinked

theorem perm (h : Calm e ws) (hp : ws.Perm ws') : Calm e ws' where
  toQueue := h.toQueue.perm hp
  unlinked := h.unlinked

theorem leaveWait {w : WaitFuture} (h : Calm e (w.waiters ++ ws)) : Calm e ws where
  toQueue := h.toQueue.leaveWait
  unlinked := h.unlinked

theorem drop {w : WaitFuture} (hsource : w.source = some true) (h : Calm e (w.waiters ++ ws)) :
    Calm (w.drop e) ws ∧ (w.drop e).state = e.state := by
  obtain ⟨source, _ | d⟩ := w
  · exact ⟨h, rfl⟩
  · cases hsource
    have hgiven := h.toQueue.giveUp
    exact ⟨hgiven.calm, hgiven.state⟩

theorem dropTimed {t : TimedWait} (hvalid : t.Valid) (h : Calm e (t.waiters ++ ws)) :
    Calm (t.drop e) ws ∧ (t.drop e).state = e.state := by
  cases t with
  | head => exact ⟨h, rfl⟩
  | wait w => exact h.drop hvalid

end Calm

end

/-- A wait that leaves the state of the event `e`, and the other waiters `ws`. -/
def WaitGoes (e : AsyncEvent) (ws : List Nat) (e' : AsyncEvent) (t : TimedWait) : Prop :=
  e'.state = e.state ∧ t.Valid ∧ Calm e' (t.waiters ++ ws)

def WaitSuspends (e : AsyncEvent) (ws : List Nat) (e' : AsyncEvent) (t : TimedWait) : Prop :=
  e.state = false ∧ e'.state = false ∧ ∃ d, t = .wait ⟨some true, some d⟩ ∧ Calm e' (d :: ws)

def WaitReturns (e : AsyncEvent) (ws : List Nat) (e' : AsyncEvent) (r : Waited) : Prop :=
  e'.state = e.state ∧ (r = .ok → e.state = true) ∧ (r = .timeout → e.state = false) ∧ Calm e' ws

section

variable {e : AsyncEvent} {ws : List Nat} {t : TimedWait} {aborted deadline : Bool} {round : Round}

theorem calmRule (e : AsyncEvent) (ws : List Nat) :
    WaitRule deadline (WaitGoes e ws) (WaitSuspends e ws) (WaitReturns e ws) where
  fresh := fun hgoes _ => ⟨hgoes.1, rfl, hgoes.2.2⟩
  ok := fun hgoes hset => ⟨hgoes.1, fun _ => hgoes.1 ▸ hset, by simp, hgoes.2.2⟩
  timeout := fun hgoes hunset => ⟨hgoes.1, by simp, fun _ => hgoes.1 ▸ hunset, hgoes.2.2⟩
  dropped := by
    rintro e' w ⟨he, hsource, hcalm⟩
    obtain ⟨hleft, hstate⟩ := hcalm.drop hsource
    have hsame := hstate.trans he
    exact ⟨⟨hsame, trivial, hleft⟩, ⟨hsame, by simp, by simp, hleft⟩, hsame, by simp, by simp,
      hleft⟩
  poll := by
    rintro e' w _ _ _ _ _ P ⟨he, hsource, hcalm⟩ hsuspend hready hcanceled hpanicked
    refine await_rule hsource hcalm.toQueue (fun e'' d hs => ?_) (fun hset => ?_)
      (fun e'' hg => ?_) fun e'' hg => ?_
    · have hunset : e.state = false := he ▸ hs.unset
      exact hsuspend _ _ ⟨hs.state.trans hunset.symm, rfl, hs.calm⟩
        ⟨hunset, hs.state, d, rfl, hs.calm⟩
    · exact hready _ (fun _ => ⟨he, trivial, hcalm.leaveWait⟩)
        ⟨he, fun _ => he ▸ hset, by simp, hcalm.leaveWait⟩
    · exact hcanceled _ ⟨hg.state.trans he, by simp, by simp, hg.calm⟩
    · exact hpanicked _ ⟨hg.state.trans he, by simp, by simp, hg.calm⟩

/-- A round of a wait leaves the event calm. -/
theorem waitRound_ends (hvalid : t.Valid) (h : Calm e (t.waiters ++ ws)) :
    Resume.Ends (WaitGoes e ws) (WaitSuspends e ws) (WaitReturns e ws)
      (e.waitRound deadline aborted round t) :=
  (calmRule e ws).ends ⟨rfl, hvalid, h⟩

/-- While the event is set, a round comes nearer to the end of the wait. -/
theorem waitRound_nearer (hset : e.state = true) (hvalid : t.Valid) (h : Calm e (t.waiters ++ ws)) :
    Resume.Ends (fun _ t' => t'.left deadline < t.left deadline) (fun _ _ => False)
      (fun _ _ => True) (e.waitRound deadline aborted round t) := by
  cases t with
  | head => cases deadline <;> simp [AsyncEvent.waitRound, AsyncEvent.isSet, hset, Resume.Ends,
      TimedWait.left]
  | wait w =>
    refine ((calmRule e ws).wait_ends ⟨rfl, hvalid, h⟩).imp (fun _ t' hgoes => ?_)
      (fun _ _ hsuspends => ?_) fun _ _ _ => trivial
    · obtain ⟨rfl, rfl, -⟩ := hgoes
      exact Nat.zero_lt_one
    · exact absurd (hset.symm.trans hsuspends.1) (by decide)

end

/-! ## The state alone -/

/-- What a round of a wait does to the state of the event, whoever else waits
for it. -/
def WaitKeeps (e : AsyncEvent) : AsyncEvent × Resume TimedWait Waited → Prop :=
  Resume.Ends (fun e' t => e'.state = e.state ∧ t.Valid)
    (fun e' t => e'.state = e.state ∧ e.state = false ∧ t.Valid)
    (fun e' r => e'.state = e.state ∧ (r = .ok → e.state = true))

section

variable {e : AsyncEvent} {w : WaitFuture} {t : TimedWait} {aborted deadline : Bool}
  {round : Round}

theorem drop_state (w : WaitFuture) (e : AsyncEvent) : (w.drop e).state = e.state := by
  unfold WaitFuture.drop WaitFuture.unregisterCanceledWait
  split
  · dsimp only
    split <;> simp
  · rfl

theorem TimedWait.drop_state (t : TimedWait) (e : AsyncEvent) : (t.drop e).state = e.state := by
  cases t with
  | head => rfl
  | wait w => exact Sync.drop_state w e

/-- The ways on from `event.wait().await?`, of which nothing but the state of
the event is kept. -/
theorem await_state {P : β → Prop} (hsource : w.source = some true)
    (hsuspend : ∀ e' w', e'.state = e.state → e.state = false → w'.source = some true →
      P (suspend e' w')) (hready : ∀ e', e'.state = e.state → e.state = true → P (ready e'))
    (hcanceled : ∀ e', e'.state = e.state → P (canceled e'))
    (hpanicked : ∀ e', e'.state = e.state → P (panicked e')) :
    P (await aborted e w suspend ready canceled panicked) := by
  obtain ⟨source, waitData⟩ := w
  cases hsource
  unfold await WaitFuture.poll
  by_cases hcancel : waitData.any (fun d => (e.waits d).canceled) = true
  · rw [if_pos hcancel]
    refine hcanceled _ ((drop_state _ _).trans ((drop_state ⟨some true, waitData⟩ _).trans ?_))
    cases waitData <;> rfl
  · rw [if_neg hcancel]
    cases aborted with
    | true => exact hpanicked _ ((drop_state _ _).trans (by simp))
    | false =>
      by_cases hset : e.state = true
      · simp only [Bool.false_eq_true, if_false, if_pos hset]
        exact hready _ (drop_state _ _) hset
      · simp only [Bool.false_eq_true, if_false, if_neg hset]
        have hunset := Bool.eq_false_iff.mpr hset
        cases waitData with
        | none | some => exact hsuspend _ _ (by simp) hunset rfl

/-- **One round** of `wait_with_deadline` leaves the state as it is. -/
theorem waitRound_keeps (hvalid : t.Valid) :
    WaitKeeps e (e.waitRound deadline aborted round t) := by
  refine WaitRule.ends ⟨?_, ?_, ?_, ?_, ?_⟩ ⟨rfl, hvalid⟩
  · exact fun hgoes _ => ⟨hgoes.1, rfl⟩
  · exact fun hgoes hset => ⟨hgoes.1, fun _ => hgoes.1 ▸ hset⟩
  · exact fun hgoes _ => ⟨hgoes.1, by simp⟩
  · rintro e' w ⟨he, -⟩
    have hsame := (drop_state w e').trans he
    exact ⟨⟨hsame, trivial⟩, ⟨hsame, by simp⟩, hsame, by simp⟩
  · rintro e' w _ _ _ _ _ P ⟨he, hsource⟩ hsuspend hready hcanceled hpanicked
    refine await_state hsource (fun e'' w' hs hunset hsource' => ?_) (fun e'' hs hset => ?_)
      (fun e'' hs => ?_) fun e'' hs => ?_
    · exact hsuspend _ _ ⟨hs.trans he, hsource'⟩ ⟨hs.trans he, he ▸ hunset, hsource'⟩
    · exact hready _ (fun _ => ⟨hs.trans he, trivial⟩) ⟨hs.trans he, fun _ => he ▸ hset⟩
    · exact hcanceled _ ⟨hs.trans he, by simp⟩
    · exact hpanicked _ ⟨hs.trans he, by simp⟩

end

end Kimojio.Sync
