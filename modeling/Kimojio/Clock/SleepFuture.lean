import Kimojio.Ring.Completion
import Kimojio.Clock.VirtualSleep

/-!
# Kimojio.Clock.SleepFuture

`SleepFuture`, which is a timeout of the ring or a sleep on the virtual clock,
and what becomes of it when it is canceled.

The two have nothing in common but their interface. A timeout shares its
completion with the kernel, which answers a cancellation in its own time; the
completions of `Kimojio.Ring` are those of a timeout without its waker. A
virtual sleep is finished by `cancel` at once.
-/

namespace Kimojio.Clock

open Kimojio.Ring

/-! ## The timeout of the ring -/

/-- The state of the completion of a timeout, with its waker. -/
inductive TimeoutState (ω : Type u) where
  | idle
  | submitted (waker : ω) (canceled : Bool)
  | completed (result : CqeResult)
  | terminated
  deriving DecidableEq, Repr

/-- The state without the waker. A timeout has no linked timeout. -/
def TimeoutState.state : TimeoutState ω → CompletionState
  | .idle => .idle .other false
  | .submitted _ canceled => .submitted canceled
  | .completed result => .completed result
  | .terminated => .terminated

/-- The `RingFuture` of a timeout, which gives its completion up with the
result. -/
structure UnitFuture (ω : Type u) where
  handle : Option (TimeoutState ω)
  deriving DecidableEq, Repr

namespace UnitFuture

def new : UnitFuture ω := ⟨some .idle⟩

/-- `RingFuture::poll`. -/
def poll (aborted : Bool) (waker : ω) (f : UnitFuture ω) : UnitFuture ω × Io.FuturePoll :=
  match f.handle with
  | none => (f, .panicked)
  | some .idle =>
    if aborted then (f, .panicked) else (⟨some (.submitted waker false)⟩, .pending)
  | some (.submitted _ canceled) =>
    if aborted then (f, .panicked) else (⟨some (.submitted waker canceled)⟩, .pending)
  | some (.completed result) => (⟨none⟩, .ready result)
  | some .terminated => (f, .panicked)

/-- `Completion::cancel`, if the future still has its completion. -/
def cancel (f : UnitFuture ω) : UnitFuture ω :=
  match f.handle with
  | some .idle => ⟨some (.completed (.error .canceled))⟩
  | some (.submitted waker _) => ⟨some (.submitted waker true)⟩
  | _ => f

/-- The result that a completion is given when the kernel has answered. -/
def answer (canceled : Bool) (result : CqeResult) : CqeResult :=
  if result = .error .canceled ∧ canceled = false then .error .time else result

/-- The kernel answers, and `process_completions` calls the waker that it
returns here. -/
def complete (result : CqeResult) (f : UnitFuture ω) : Option (UnitFuture ω × ω) :=
  match f.handle with
  | some (.submitted waker canceled) =>
    some (⟨some (.completed (answer canceled result))⟩, waker)
  | _ => none

end UnitFuture

/-! ## Both sleeps -/

/-- What a poll of a sleep returns. -/
inductive SleepOutcome where
  | pending
  | ok
  | error (code : Errno)
  | panicked
  deriving DecidableEq, Repr

def mapTimeoutPoll : Io.FuturePoll → SleepOutcome
  | .ready (.error code) => if code = .time then .ok else .error code
  | .ready (.ok _) => .panicked
  | .pending => .pending
  | .panicked => .panicked

inductive SleepFuture (ω : Type u) where
  | real (fut : UnitFuture ω)
  | virtual (fut : VirtualSleepFuture ω)
  deriving DecidableEq, Repr

namespace SleepFuture

def cancel (clock : Option (VirtualClockState ω)) :
    SleepFuture ω → Option (VirtualClockState ω) × SleepFuture ω
  | .real fut => (clock, .real fut.cancel)
  | .virtual fut =>
    let (clock, fut) := fut.cancel clock
    (clock, .virtual fut)

/-- `SleepFuture::poll`. Only the timeout looks whether the task is
aborted. -/
def poll [DecidableEq ω] (clock : Option (VirtualClockState ω)) (aborted : Bool) (waker : ω) :
    SleepFuture ω → Option (VirtualClockState ω) × SleepFuture ω × SleepOutcome
  | .real fut =>
    let (fut, r) := fut.poll aborted waker
    (clock, .real fut, mapTimeoutPoll r)
  | .virtual fut =>
    let (clock, fut, r) := fut.poll clock waker
    (clock, .virtual fut, match r with
      | .pending => .pending
      | .ready => .ok
      | .panicked => .panicked)

/-- The poll of a virtual sleep whose time has come calls its own waker before
it returns `Pending`. -/
def wakesItself (clock : Option (VirtualClockState ω)) : SleepFuture ω → Bool
  | .real _ => false
  | .virtual fut => clock.any fun clock => clock.now ≥ fut.deadline && !fut.yieldedOnce

end SleepFuture

/-- Which future `sleep` returns. -/
inductive SleepKind where
  | real
  | virtual (now deadline : Int)
  deriving DecidableEq, Repr

/-- A sleep, the clock of its thread, whether it was canceled before it had
resolved, what it has resolved with, and the waker of the last poll that
returned `Pending` if it has not been called since. -/
structure SleepRun (ω : Type u) where
  future : SleepFuture ω
  clock : Option (VirtualClockState ω)
  canceled : Bool
  resolved : Option SleepOutcome
  awaiting : Option ω

inductive RunLabel (ω : Type u) where
  | poll (waker : ω) (aborted : Bool)
  | cancel
  /-- The kernel answers. -/
  | complete (result : CqeResult)
  | advanceTo (target : Int)
  deriving DecidableEq, Repr

namespace SleepRun

variable [DecidableEq ω]

def new : SleepKind → SleepRun ω
  | .real => ⟨.real .new, none, false, none, none⟩
  | .virtual now deadline => ⟨.virtual (.new deadline), some (.new now), false, none, none⟩

def pollSleep (s : SleepRun ω) (waker : ω) (aborted : Bool) : SleepRun ω :=
  let (clock, future, r) := s.future.poll s.clock aborted waker
  match r with
  | .pending =>
    { s with future, clock,
             awaiting := if s.future.wakesItself s.clock then none else some waker }
  | r => { s with future, clock, resolved := some r }

def cancelSleep (s : SleepRun ω) : SleepRun ω :=
  let (clock, future) := s.future.cancel s.clock
  { s with future, clock, canceled := true }

/-- A future that has resolved is not used any more. -/
def next (s : SleepRun ω) : RunLabel ω → Option (SleepRun ω)
  | .poll waker aborted => if s.resolved = none then some (s.pollSleep waker aborted) else none
  | .cancel => if s.resolved = none then some s.cancelSleep else none
  | .complete result =>
    match s.future with
    | .real fut => (fut.complete result).map fun r =>
      { s with future := .real r.1, awaiting := s.awaiting.filter (· ≠ r.2) }
    | .virtual _ => none
  | .advanceTo target => s.clock.map fun clock =>
    { s with
      clock := some (clock.advanceTo target).1
      awaiting := s.awaiting.filter (· ∉ (clock.advanceTo target).2.2) }

end SleepRun

def sleepRuns (ω : Type u) [DecidableEq ω] (kind : SleepKind) :
    System (SleepRun ω) (RunLabel ω) where
  start := .new kind
  next := SleepRun.next

/-! ## The timeout and its completion -/

namespace UnitFuture

variable {io : Io} {r : Ref} {f f' : UnitFuture ω} {waker : ω} {aborted : Bool}

/-- The future has the completion that is found at its address. -/
def Agrees (io : Io) (r : Ref) (f : UnitFuture ω) : Prop :=
  ∃ c st, io.heap.get r.addr = some c ∧ f.handle = some st ∧ c.state = st.state

theorem Agrees.setState {heap : RcHeap Completion} (hget : heap.get r.addr = some c)
    (hheap : io.heap = heap.modify r.addr fun c => { c with state }) (hstate : state = st.state) :
    Agrees io r ⟨some st⟩ := by
  refine ⟨{ c with state }, st, ?_, rfl, hstate⟩
  rw [hheap, RcHeap.get_modify, if_pos rfl, hget]
  rfl

/-- A poll of the future is a poll of its completion. -/
theorem Agrees.poll (h : f.Agrees io r) : (io.poll aborted r).2 = (f.poll aborted waker).2 ∧
      ((f.poll aborted waker).2 = .pending →
        (f.poll aborted waker).1.Agrees (io.poll aborted r).1 r) := by
  obtain ⟨c, st, hget, hhandle, hstate⟩ := h
  unfold Io.poll UnitFuture.poll
  simp only [hget, hhandle, hstate]
  cases st with
  | idle =>
    cases aborted with
    | true => exact ⟨rfl, nofun⟩
    | false =>
      refine ⟨rfl, fun _ => ?_⟩
      have hclone : (io.heap.clone r.addr).get r.addr = some c := by
        rw [RcHeap.get_clone, hget]
      exact .setState hclone rfl rfl
  | submitted w canceled =>
    cases aborted with
    | true => exact ⟨rfl, nofun⟩
    | false => exact ⟨rfl, fun _ => ⟨c, _, hget, rfl, hstate⟩⟩
  | completed | terminated => exact ⟨rfl, nofun⟩

theorem Agrees.cancel (h : f.Agrees io r) : f.cancel.Agrees (io.cancel r cause) r := by
  obtain ⟨c, st, hget, hhandle, hstate⟩ := h
  unfold Io.cancel UnitFuture.cancel
  simp only [hget, hhandle, hstate]
  cases st with
  | idle => exact .setState hget rfl rfl
  | submitted w canceled =>
    cases canceled with
    | false => exact .setState hget rfl rfl
    | true => exact ⟨c, _, hget, rfl, hstate⟩
  | completed | terminated => exact ⟨c, _, hget, hhandle, hstate⟩

/-- The answer of the kernel is the completion of the future, which the kernel
shares with it. -/
theorem Agrees.complete (h : f.Agrees io r) (hcq : (io.rings iopoll).cq = ⟨some r, result⟩ :: cq)
    (hshared : 1 < io.heap.strongCount r.addr) (hf : f.complete result = some (f', waker)) :
    ∃ io', io.processCompletion iopoll = some io' ∧ f'.Agrees io' r := by
  obtain ⟨c, st, hget, hhandle, hstate⟩ := h
  unfold UnitFuture.complete at hf
  rw [hhandle] at hf
  cases st with
  | submitted w canceled =>
    cases hf
    refine ⟨_, by simp only [Io.processCompletion, hcq, Io.setRing, hget, hstate]; rfl, ?_⟩
    have hstrong (g : Completion → Completion) :
        (io.heap.modify r.addr g).strongCount r.addr ≠ 1 := by
      rw [RcHeap.strongCount_modify]
      omega
    unfold Io.returnCompletion
    rw [if_neg fun hone => hstrong _ hone.2]
    refine ⟨{ c with state := .completed (answer canceled result) }, _, ?_, rfl, rfl⟩
    show ((io.heap.modify r.addr _).drop r.addr).get r.addr = some _
    rw [RcHeap.get_drop, if_neg (by rw [RcHeap.strongCount_modify]; omega), RcHeap.get_modify,
      if_pos rfl, hget]
    rfl
  | idle | completed | terminated => cases hf

end UnitFuture

/-! ## Cancellation -/

/-- Every poll of a virtual sleep after `cancel` panics, whatever the clock
has done in between. -/
theorem virtual_cancel_panics [DecidableEq ω] (fut : VirtualSleepFuture ω)
    (clock clock' : Option (VirtualClockState ω)) (waker : ω) :
    ((fut.cancel clock).2.poll clock' waker).2.2 = .panicked := by
  cases clock' <;> rfl

namespace UnitFuture

/-- The future of a timeout resolves with an error or waits for the kernel to
answer a cancellation. -/
def Doomed (f : UnitFuture ω) : Prop :=
  match f.handle with
  | some (.submitted _ canceled) => canceled = true
  | some (.completed (.error code)) => code ≠ .time
  | _ => False

/-- Only the waker that the kernel will have called waits. -/
def Awaited (awaiting : Option ω) (f : UnitFuture ω) : Prop :=
  match f.handle with
  | some (.submitted waker _) => ∀ w, awaiting = some w → w = waker
  | some .idle | some (.completed _) => awaiting = none
  | _ => False

theorem Awaited.filter {f : UnitFuture ω} (h : f.Awaited awaiting) (p : ω → Bool) :
    f.Awaited (awaiting.filter p) := by
  unfold Awaited at h ⊢
  split at h
  · exact fun w hw => h w (Option.filter_eq_some_iff.mp hw).1
  · rw [h]
    rfl
  · rw [h]
    rfl
  · exact h

end UnitFuture

namespace SleepRun

variable {s s' : SleepRun ω} {l : RunLabel ω}

/-- Of the timeouts, none is canceled that has fired, and what the kernel
answers to a cancellation is that there was one. The task is not aborted. -/
def cancelsUnfired (s : SleepRun ω) : RunLabel ω → Bool
  | .poll _ aborted => !(s.canceled && aborted)
  | .cancel =>
    match s.future with
    | .real ⟨some (.completed (.error code))⟩ => code ≠ .time
    | .real ⟨some (.completed (.ok _))⟩ => false
    | .real _ => true
    | .virtual _ => false
  | .complete result =>
    !s.canceled || match result with
      | .error code => code ≠ .time
      | .ok _ => false
  | .advanceTo _ => true

/-- The invariant of a sleep that is canceled as `cancelsUnfired` says. -/
structure Inv (s : SleepRun ω) : Prop where
  doomed : s.canceled = true → s.resolved = none → ∃ fut, s.future = .real fut ∧ fut.Doomed
  awaited : ∀ fut, s.future = .real fut → s.resolved = none → fut.Awaited s.awaiting
  ended : s.canceled = true → ∀ o, s.resolved = some o → ∃ code, o = .error code

theorem Inv.new [DecidableEq ω] (kind : SleepKind) : Inv (new kind : SleepRun ω) := by
  cases kind with
  | real => exact ⟨nofun, fun _ hfut _ => by cases hfut; rfl, nofun⟩
  | virtual now deadline => exact ⟨nofun, nofun, nofun⟩

theorem Inv.of_virtual (hfuture : s.future = .virtual fut) (hcanceled : s.canceled = false) :
    s.Inv := by
  refine ⟨fun h => ?_, fun fut' hfut' => ?_, fun h => ?_⟩
  · rw [hcanceled] at h
    cases h
  · rw [hfuture] at hfut'
    cases hfut'
  · rw [hcanceled] at h
    cases h

theorem Inv.not_canceled (h : s.Inv) (hopen : s.resolved = none)
    (hfuture : s.future = .virtual fut) : s.canceled = false := by
  cases hcanceled : s.canceled with
  | false => rfl
  | true =>
    obtain ⟨_, hreal, -⟩ := h.doomed hcanceled hopen
    rw [hfuture] at hreal
    cases hreal

theorem Inv.resolve {future : SleepFuture ω} {clock : Option (VirtualClockState ω)}
    {canceled : Bool} {awaiting : Option ω} (h : canceled = true → ∃ code, o = .error code) :
    Inv ⟨future, clock, canceled, some o, awaiting⟩ := by
  refine ⟨nofun, nofun, fun hc o' ho => ?_⟩
  cases ho
  exact h hc

/-- A timeout that has an answer returns it. -/
theorem pollSleep_completed [DecidableEq ω] (clock : Option (VirtualClockState ω)) (canceled : Bool)
    (awaiting : Option ω) (waker : ω) (aborted : Bool) (result : CqeResult) :
    ∃ o, o = mapTimeoutPoll (.ready result) ∧
      pollSleep ⟨.real ⟨some (.completed result)⟩, clock, canceled, none, awaiting⟩ waker aborted =
        ⟨.real ⟨none⟩, clock, canceled, some o, awaiting⟩ := by
  refine ⟨_, rfl, ?_⟩
  cases result with
  | ok value => rfl
  | error code =>
    by_cases hcode : code = .time <;>
      simp [pollSleep, SleepFuture.poll, UnitFuture.poll, mapTimeoutPoll, hcode]

theorem Inv.pollReal [DecidableEq ω] {clock : Option (VirtualClockState ω)} {canceled : Bool}
    {awaiting : Option ω} (h : Inv ⟨.real ⟨handle⟩, clock, canceled, none, awaiting⟩)
    (hcalm : canceled = true → aborted = false) :
    (pollSleep ⟨.real ⟨handle⟩, clock, canceled, none, awaiting⟩ waker aborted).Inv := by
  have hdoomed (hc : canceled = true) : UnitFuture.Doomed ⟨handle⟩ := by
    obtain ⟨_, hfut, hdoomed⟩ := h.doomed hc rfl
    cases hfut
    exact hdoomed
  cases handle with
  | none => exact (h.awaited _ rfl rfl).elim
  | some st =>
    cases st with
    | idle =>
      cases aborted with
      | true => exact .resolve fun hc => (hdoomed hc).elim
      | false =>
        refine ⟨fun hc _ => (hdoomed hc).elim, fun fut hfut _ => ?_, nofun⟩
        cases hfut
        exact fun w hw => (Option.some.inj hw).symm
    | submitted w submitted =>
      cases aborted with
      | true => exact .resolve fun hc => by cases hcalm hc
      | false =>
        refine ⟨fun hc _ => ⟨_, rfl, hdoomed hc⟩, fun fut hfut _ => ?_, nofun⟩
        cases hfut
        exact fun w hw => (Option.some.inj hw).symm
    | completed result =>
      obtain ⟨o, ho, heq⟩ := pollSleep_completed clock canceled awaiting waker aborted result
      rw [heq, ho]
      refine .resolve fun hc => ?_
      cases result with
      | ok value => exact (hdoomed hc).elim
      | error code =>
        have hcode : code ≠ .time := hdoomed hc
        exact ⟨code, by simp [mapTimeoutPoll, hcode]⟩
    | terminated => exact (h.awaited _ rfl rfl).elim

/-- A poll of a virtual sleep that was not canceled. -/
theorem Inv.pollVirtual [DecidableEq ω] (hfuture : s.future = .virtual fut)
    (hcanceled : s.canceled = false) : (s.pollSleep waker aborted).Inv := by
  have hvirtual : (s.pollSleep waker aborted).future = .virtual (fut.poll s.clock waker).2.1 := by
    simp only [pollSleep, hfuture, SleepFuture.poll]
    split <;> rfl
  refine .of_virtual hvirtual ?_
  simp only [pollSleep]
  split <;> exact hcanceled

theorem Inv.cancelReal [DecidableEq ω] {clock : Option (VirtualClockState ω)} {canceled : Bool}
    {awaiting : Option ω} (h : Inv ⟨.real ⟨handle⟩, clock, canceled, none, awaiting⟩)
    (hcalm : cancelsUnfired ⟨.real ⟨handle⟩, clock, canceled, none, awaiting⟩ .cancel = true) :
    (cancelSleep ⟨.real ⟨handle⟩, clock, canceled, none, awaiting⟩).Inv := by
  have hawaited := h.awaited _ rfl rfl
  refine ⟨fun _ _ => ⟨_, rfl, ?_⟩, fun fut hfut _ => ?_, nofun⟩
  · rcases handle with _ | (_ | ⟨w, submitted⟩ | (value | code) | _)
    · exact hawaited.elim
    · exact (by decide : Errno.canceled ≠ Errno.time)
    · rfl
    · cases hcalm
    · exact (of_decide_eq_true hcalm : code ≠ .time)
    · exact hawaited.elim
  · cases hfut
    rcases handle with _ | (_ | _ | _ | _) <;> exact hawaited

theorem Inv.complete [DecidableEq ω] (h : s.Inv) (hfuture : s.future = .real fut)
    (hcalm : s.cancelsUnfired (.complete result) = true)
    (hcomplete : fut.complete result = some (fut', waker)) :
    Inv { s with future := .real fut', awaiting := s.awaiting.filter (· ≠ waker) } := by
  unfold UnitFuture.complete at hcomplete
  split at hcomplete
  · next waker canceled hhandle =>
    cases hcomplete
    refine ⟨fun hc hopen => ⟨_, rfl, ?_⟩, fun fut hfut hopen => ?_, h.ended⟩
    · have hcanceled : s.canceled = true := hc
      obtain ⟨_, hfut, hdoomed⟩ := h.doomed hc hopen
      rw [hfuture] at hfut
      cases hfut
      simp only [UnitFuture.Doomed, hhandle] at hdoomed
      -- what the kernel answers to a cancellation is not taken for a timeout
      have hanswer : UnitFuture.answer canceled result = result := by
        simp [UnitFuture.answer, hdoomed]
      cases result with
      | ok value => simp [cancelsUnfired, hcanceled] at hcalm
      | error code =>
        simp only [cancelsUnfired, hcanceled] at hcalm
        simpa [UnitFuture.Doomed, hanswer] using hcalm
    · cases hfut
      have hawaited := h.awaited _ hfuture hopen
      simp only [UnitFuture.Awaited, hhandle] at hawaited
      show s.awaiting.filter (· ≠ waker) = none
      rw [Option.filter_eq_none_iff]
      intro w hw
      simpa using hawaited w hw
  · cases hcomplete

/-- **One step** keeps the invariant. -/
theorem Inv.next [DecidableEq ω] (h : s.Inv) (hcalm : s.cancelsUnfired l = true)
    (hs : s.next l = some s') : s'.Inv := by
  cases l with
  | poll waker aborted =>
    obtain ⟨hopen, rfl⟩ := Option.ite_some_none_eq_some.mp hs
    obtain ⟨future, clock, canceled, resolved, awaiting⟩ := s
    cases hopen
    cases future with
    | real fut =>
      refine h.pollReal fun hc => ?_
      simpa [cancelsUnfired, hc] using hcalm
    | virtual fut => exact .pollVirtual rfl (h.not_canceled rfl rfl)
  | cancel =>
    obtain ⟨hopen, rfl⟩ := Option.ite_some_none_eq_some.mp hs
    obtain ⟨future, clock, canceled, resolved, awaiting⟩ := s
    cases hopen
    cases future with
    | real fut => exact h.cancelReal hcalm
    | virtual fut => cases hcalm
  | complete result =>
    rw [SleepRun.next] at hs
    split at hs
    · next fut hfuture =>
      obtain ⟨⟨fut', waker⟩, hr, rfl⟩ := Option.map_eq_some_iff.mp hs
      exact h.complete hfuture hcalm hr
    · cases hs
  | advanceTo target =>
    obtain ⟨clock, hclock, rfl⟩ := Option.map_eq_some_iff.mp hs
    exact ⟨h.doomed, fun fut hfut hopen => (h.awaited fut hfut hopen).filter _, h.ended⟩

/-- What is seen of a sleep that was canceled: it has resolved with an error,
or it does so at the next poll and no task waits that has not been woken, or
the kernel has still to answer. -/
structure CancelSeen [DecidableEq ω] (s : SleepRun ω) : Prop where
  ended : ∀ o, s.resolved = some o → ∃ code, o = .error code
  unresolved : s.resolved = none → ∀ waker,
    (∃ code, (s.future.poll s.clock false waker).2.2 = .error code) ∧ s.awaiting = none ∨
    (s.future.poll s.clock false waker).2.2 = .pending ∧
      ∀ result, (s.next (.complete result)).isSome = true

end SleepRun

open SleepRun

/-- **Cancellation**: a timeout that is canceled before it has fired is seen
to be canceled. -/
theorem cancel_seen [DecidableEq ω] (kind : SleepKind) (s : SleepRun ω)
    (h : (sleepRuns ω kind).Reaches (fun s l => s.cancelsUnfired l = true) s)
    (hcanceled : s.canceled = true) : s.CancelSeen := by
  have hinv := h.invariant (P := Inv) (.new kind) fun _ _ _ hinv hcalm hs => hinv.next hcalm hs
  refine ⟨hinv.ended hcanceled, fun hopen waker => ?_⟩
  obtain ⟨⟨handle⟩, hfut, hdoomed⟩ := hinv.doomed hcanceled hopen
  have hawaited := hinv.awaited _ hfut hopen
  rw [hfut]
  rcases handle with _ | (_ | ⟨w, submitted⟩ | (value | code) | _)
  · exact hdoomed.elim
  · exact hdoomed.elim
  · refine .inr ⟨rfl, fun result => ?_⟩
    simp [SleepRun.next, hfut, UnitFuture.complete]
  · exact hdoomed.elim
  · have hcode : code ≠ .time := hdoomed
    exact .inl ⟨⟨code, by simp [SleepFuture.poll, UnitFuture.poll, mapTimeoutPoll, hcode]⟩,
      hawaited⟩
  · exact hdoomed.elim

/-- A timeout is polled and canceled, the kernel answers, and the next poll
returns the error. -/
theorem cancel_seen_timeout : ∃ s : SleepRun Nat,
      (sleepRuns Nat .real).Reaches (fun s l => s.cancelsUnfired l = true) s ∧
      s.canceled = true ∧ s.resolved = some (.error .canceled) ∧ s.CancelSeen := by
  have hrun : ((sleepRuns Nat .real).restrict cancelsUnfired).run (sleepRuns Nat .real).start
      [.poll 7 false, .cancel, .poll 8 false, .complete (.error .canceled), .poll 8 false] =
        some _ := rfl
  have hreach := System.Reaches.start.run hrun
  exact ⟨_, hreach, rfl, rfl, cancel_seen .real _ hreach rfl⟩

/-- A virtual sleep that is polled and canceled: the task is not woken, and
the next poll panics. And a timeout that is canceled when it has fired
resolves without an error. -/
theorem exists_cancel_unseen :
    (∃ s : SleepRun Nat, (sleepRuns Nat (.virtual 0 10)).Reaches (fun _ _ => True) s ∧
      s.canceled = true ∧ s.resolved = none ∧ s.awaiting = some 7 ∧
      (s.future.poll s.clock false 7).2.2 = .panicked) ∧
    ∃ s : SleepRun Nat, (sleepRuns Nat .real).Reaches (fun _ _ => True) s ∧
      s.canceled = true ∧ s.resolved = none ∧ (s.future.poll s.clock false 7).2.2 = .ok := by
  have hvirtual : (sleepRuns Nat (.virtual 0 10)).run (sleepRuns Nat (.virtual 0 10)).start
      [.poll 7 false, .cancel] = some _ := rfl
  have hreal : (sleepRuns Nat .real).run (sleepRuns Nat .real).start
      [.poll 7 false, .complete (.error .time), .cancel] = some _ := rfl
  exact ⟨⟨_, System.reaches_run hvirtual, rfl, rfl, rfl, rfl⟩,
    _, System.reaches_run hreal, rfl, rfl, rfl⟩

end Kimojio.Clock
