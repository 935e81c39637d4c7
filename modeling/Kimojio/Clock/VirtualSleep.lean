import Kimojio.Table
import Kimojio.Clock.VirtualClock

/-!
# Kimojio.Clock.VirtualSleep

Sleeps on the virtual clock, and the clock that is enabled and disabled while
there are sleeps.

A sleep knows its timer by its id, and looks it up in whichever clock is
enabled. The ids of a new clock start again, so a sleep that outlives its
clock holds an id that may be the id of another sleep's timer.

Every sleep has a record of its polls besides its future: the waker of the
last poll that returned `Pending`, and whether a poll has returned `Pending`
when the deadline had been reached.
-/

namespace Kimojio.Clock

structure VirtualSleepFuture (ω : Type u) where
  deadline : Int
  timerId : Option Nat
  cachedWaker : Option ω
  completed : Bool
  yieldedOnce : Bool
  deriving DecidableEq, Repr

/-- What a poll returns: `Pending`, `Ready(Ok(()))`, or it panics. -/
inductive SleepPoll where
  | pending
  | ready
  | panicked
  deriving DecidableEq, Repr

namespace VirtualSleepFuture

def new (deadline : Int) : VirtualSleepFuture ω := ⟨deadline, none, none, false, false⟩

/-- Cancels the timer of a sleep that is dropped or canceled, in the clock
that is enabled. -/
def releaseTimer (clock : Option (VirtualClockState ω)) (f : VirtualSleepFuture ω) :
    Option (VirtualClockState ω) :=
  match f.timerId with
  | some id => clock.map (·.cancelTimer id)
  | none => clock

def cancel (clock : Option (VirtualClockState ω)) (f : VirtualSleepFuture ω) :
    Option (VirtualClockState ω) × VirtualSleepFuture ω :=
  (f.releaseTimer clock, { f with timerId := none, completed := true })

/-- The timer is registered, in the place of the old one. -/
def register (clock : VirtualClockState ω) (waker : ω) (f : VirtualSleepFuture ω) :
    VirtualClockState ω × VirtualSleepFuture ω :=
  let clock := match f.timerId with
    | some id => clock.cancelTimer id
    | none => clock
  let (clock, id) := clock.registerTimer f.deadline waker
  (clock, { f with timerId := some id, cachedWaker := some waker })

/-- Wakers are compared by `will_wake`. -/
def needsRegister [DecidableEq ω] (waker : ω) (f : VirtualSleepFuture ω) : Bool :=
  match f.timerId, f.cachedWaker with
  | some _, some w => w ≠ waker
  | _, _ => true

/-- `VirtualSleepFuture::poll` with the clock that is enabled. -/
def pollAt [DecidableEq ω] (clock : VirtualClockState ω) (waker : ω) (f : VirtualSleepFuture ω) :
    VirtualClockState ω × VirtualSleepFuture ω × SleepPoll :=
  if f.completed then (clock, f, .panicked)
  else if clock.now ≥ f.deadline then
    -- the waker is called at once, so that the task is polled again
    if !f.yieldedOnce then (clock, { f with yieldedOnce := true }, .pending)
    else (clock, { f with completed := true, timerId := none }, .ready)
  else if f.needsRegister waker then
    let (clock, f) := f.register clock waker
    (clock, f, .pending)
  else (clock, f, .pending)

/-- `VirtualSleepFuture::poll`, which panics when no clock is enabled. -/
def poll [DecidableEq ω] (clock : Option (VirtualClockState ω)) (waker : ω)
    (f : VirtualSleepFuture ω) :
    Option (VirtualClockState ω) × VirtualSleepFuture ω × SleepPoll :=
  match clock with
  | none => (none, f, .panicked)
  | some clock =>
    let (clock, f, r) := f.pollAt clock waker
    (some clock, f, r)

end VirtualSleepFuture

/-- A sleep, with the waker of the last poll that returned `Pending`, and
whether one has returned `Pending` with the deadline reached. -/
structure Sleeper (ω : Type u) where
  future : VirtualSleepFuture ω
  latest : Option ω
  pendedDue : Bool
  deriving DecidableEq, Repr

namespace Sleeper

def new (deadline : Int) : Sleeper ω := ⟨.new deadline, none, false⟩

/-- The sleep has returned `Pending`, is not finished, and has its deadline
ahead of it. -/
def Waits (now : Int) (a : Sleeper ω) : Prop :=
  a.latest.isSome = true ∧ a.future.completed = false ∧ now < a.future.deadline

/-- A poll is recorded. -/
def polled (a : Sleeper ω) (clock : Option (VirtualClockState ω)) (waker : ω)
    (f : VirtualSleepFuture ω) : SleepPoll → Sleeper ω
  | .pending =>
    { future := f
      latest := some waker
      pendedDue := a.pendedDue || clock.any fun clock => a.future.deadline ≤ clock.now }
  | _ => { a with future := f }

end Sleeper

/-- The virtual clock of a thread, if it is enabled, and all sleeps on it. A
sleep that has been dropped is `none`. -/
structure Sleeping (ω : Type u) where
  clock : Option (VirtualClockState ω)
  sleeps : List (Option (Sleeper ω))

inductive SleepLabel (ω : Type u) where
  | sleep (duration : Nat)
  | sleepUntil (deadline : Int)
  | poll (i : Nat) (waker : ω)
  | cancel (i : Nat)
  | drop (i : Nat)
  | advance (duration : Nat)
  | advanceTo (target : Int)
  | disable
  /-- The real time is the start of the new clock. -/
  | enable (now : Int)
  deriving DecidableEq, Repr

namespace Sleeping

variable [DecidableEq ω]

/-- The deadline of `sleep`, which panics when even a hundred years are too
long. -/
def sleepDeadline (now : Int) (duration : Nat) : Option Int :=
  match checkedAdd now duration with
  | some deadline => some deadline
  | none => checkedAdd now hundredYears

def addSleep (s : Sleeping ω) (deadline : Int) : Sleeping ω :=
  { s with sleeps := s.sleeps ++ [some (.new deadline)] }

def pollSleep (s : Sleeping ω) (i : Nat) (waker : ω) (a : Sleeper ω) : Sleeping ω :=
  let (clock, f, r) := a.future.poll s.clock waker
  ⟨clock, s.sleeps.set i (some (a.polled s.clock waker f r))⟩

def cancelSleep (s : Sleeping ω) (i : Nat) (a : Sleeper ω) : Sleeping ω :=
  let (clock, f) := a.future.cancel s.clock
  ⟨clock, s.sleeps.set i (some { a with future := f })⟩

def dropSleep (s : Sleeping ω) (i : Nat) (a : Sleeper ω) : Sleeping ω :=
  ⟨a.future.releaseTimer s.clock, s.sleeps.set i none⟩

def next (s : Sleeping ω) : SleepLabel ω → Option (Sleeping ω)
  | .sleep duration =>
    s.clock.bind fun clock => (sleepDeadline clock.now duration).map s.addSleep
  | .sleepUntil deadline => s.clock.map fun _ => s.addSleep deadline
  | .poll i waker => (s.sleeps[i]?).join.map (s.pollSleep i waker)
  | .cancel i => (s.sleeps[i]?).join.map (s.cancelSleep i)
  | .drop i => (s.sleeps[i]?).join.map (s.dropSleep i)
  | .advance duration =>
    s.clock.map fun clock =>
      match clock.advance duration with
      | some r => { s with clock := some r.1 }
      | none => s
  | .advanceTo target => s.clock.map fun clock =>
    { s with clock := some (clock.advanceTo target).1 }
  | .disable => some { s with clock := none }
  | .enable now =>
    match s.clock with
    | none => some { s with clock := some (.new now) }
    | some _ => some s

end Sleeping

/-- A thread that starts without a virtual clock. -/
def sleepings (ω : Type u) [DecidableEq ω] : System (Sleeping ω) (SleepLabel ω) where
  start := ⟨none, []⟩
  next := Sleeping.next

/-! ## Sleeps and timers -/

/-- What holds of a sleep whatever clock is enabled. -/
structure Sleeper.Plain (a : Sleeper ω) : Prop where
  finished : a.future.completed = true → a.future.timerId = none
  unpolled : a.latest = none → a.future.timerId = none
  pendedDue : a.pendedDue = a.future.yieldedOnce

/-- The timers of a clock are those of the sleeps that wait for it. -/
structure Timed (clock : VirtualClockState ω) (sleeps : List (Option (Sleeper ω))) : Prop where
  distinct : ∀ (i j : Nat) (a b : Sleeper ω) (id : Nat), sleeps[i]? = some (some a) →
    sleeps[j]? = some (some b) → a.future.timerId = some id → b.future.timerId = some id → i = j
  fresh : ∀ (i : Nat) (a : Sleeper ω) (id : Nat), sleeps[i]? = some (some a) →
    a.future.timerId = some id → id < clock.nextTimerId
  single : clock.timers.Pairwise fun t t' => t.id ≠ t'.id
  armed : ∀ (i : Nat) (a : Sleeper ω), sleeps[i]? = some (some a) → a.Waits clock.current →
    ∃ id w, a.future.timerId = some id ∧ a.latest = some w ∧ a.future.cachedWaker = some w ∧
      ⟨id, a.future.deadline, w⟩ ∈ clock.timers
  owned : ∀ t ∈ clock.timers, ∃ (i : Nat) (a : Sleeper ω), sleeps[i]? = some (some a) ∧
    a.Waits clock.current ∧ a.future.timerId = some t.id

namespace Timed

variable {clock clock' : VirtualClockState ω} {sleeps : List (Option (Sleeper ω))} {i : Nat}
  {a b : Sleeper ω} {t : VirtualTimer ω}

/-- Timers of one id are one timer. -/
theorem eq_of_id (h : Timed clock sleeps) (ht : t ∈ clock.timers) (ht' : t' ∈ clock.timers)
    (hid : t.id = t'.id) : t = t' :=
  eq_of_pairwise_ne h.single ht ht' hid

/-- A sleep that does not wait has no timer. -/
theorem no_timer (h : Timed clock sleeps) (hi : sleeps[i]? = some (some a))
    (ha : ¬ a.Waits clock.current) (ht : t ∈ clock.timers) : a.future.timerId ≠ some t.id := by
  intro hid
  obtain ⟨j, b, hj, hwaits, hown⟩ := h.owned t ht
  obtain rfl := h.distinct i j a b t.id hi hj hid hown
  rw [hi] at hj
  cases hj
  exact ha hwaits

theorem update (h : Timed clock sleeps) (hi : sleeps[i]? = some (some a))
    (hcurrent : clock'.current = clock.current) (hnext : clock.nextTimerId ≤ clock'.nextTimerId)
    (hsingle : clock'.timers.Pairwise fun t t' => t.id ≠ t'.id)
    (hothers : ∀ t ∈ clock.timers, a.future.timerId ≠ some t.id → t ∈ clock'.timers)
    (hown : ∀ t ∈ clock'.timers, t ∈ clock.timers ∧ a.future.timerId ≠ some t.id ∨
      ∃ b, x = some b ∧ b.Waits clock.current ∧ b.future.timerId = some t.id)
    (harmed : ∀ b, x = some b → b.Waits clock.current →
      ∃ id w, b.future.timerId = some id ∧ b.latest = some w ∧ b.future.cachedWaker = some w ∧
        ⟨id, b.future.deadline, w⟩ ∈ clock'.timers)
    (hid : ∀ b id, x = some b → b.future.timerId = some id →
      a.future.timerId = some id ∨ clock.nextTimerId ≤ id ∧ id < clock'.nextTimerId) :
    Timed clock' (sleeps.set i x) := by
  -- what the new sleep holds, nobody else does
  have hnew (j : Nat) (b c : Sleeper ω) (id : Nat) (hb : x = some b)
      (hbid : b.future.timerId = some id) (hj : sleeps[j]? = some (some c))
      (hcid : c.future.timerId = some id) : i = j := by
    rcases hid b id hb hbid with hold | ⟨hge, -⟩
    · exact h.distinct i j a c id hi hj hold hcid
    · exact absurd (h.fresh j c id hj hcid) (Nat.not_lt.mpr hge)
  constructor
  · intro j k b c id hj hk hbid hcid
    rcases mem_of_set hj with ⟨rfl, hb⟩ | ⟨hji, hj'⟩
    · rcases mem_of_set hk with ⟨rfl, -⟩ | ⟨hki, hk'⟩
      · rfl
      · exact absurd (hnew k b c id hb.symm hbid hk' hcid) (Ne.symm hki)
    · rcases mem_of_set hk with ⟨rfl, hc⟩ | ⟨hki, hk'⟩
      · exact absurd (hnew j c b id hc.symm hcid hj' hbid) (Ne.symm hji)
      · exact h.distinct j k b c id hj' hk' hbid hcid
  · intro j b id hj hbid
    rcases mem_of_set hj with ⟨rfl, hb⟩ | ⟨-, hj⟩
    · rcases hid b id hb.symm hbid with hold | ⟨-, hlt⟩
      · exact Nat.lt_of_lt_of_le (h.fresh j a id hi hold) hnext
      · exact hlt
    · exact Nat.lt_of_lt_of_le (h.fresh j b id hj hbid) hnext
  · exact hsingle
  · intro j b hj hwaits
    rw [hcurrent] at hwaits
    rcases mem_of_set hj with ⟨rfl, hb⟩ | ⟨hji, hj⟩
    · exact harmed b hb.symm hwaits
    · obtain ⟨id, w, hbid, hlatest, hcached, hmem⟩ := h.armed j b hj hwaits
      refine ⟨id, w, hbid, hlatest, hcached, hothers _ hmem fun haid => hji ?_⟩
      exact h.distinct j i b a id hj hi hbid haid
  · intro t ht
    rw [hcurrent]
    obtain ⟨hilt, -⟩ := List.getElem?_eq_some_iff.mp hi
    rcases hown t ht with ⟨hold, hne⟩ | ⟨b, hb, hwaits, hbid⟩
    · obtain ⟨j, b, hj, hwaits, hbid⟩ := h.owned t hold
      refine ⟨j, b, ?_, hwaits, hbid⟩
      have hji : i ≠ j := by
        rintro rfl
        rw [hi] at hj
        cases hj
        exact hne hbid
      rw [List.getElem?_set_ne hji]
      exact hj
    · exact ⟨i, b, by rw [List.getElem?_set_self hilt, hb], hwaits, hbid⟩

end Timed

/-- The clock without the timer of an id, if there is one. -/
def VirtualClockState.without (clock : VirtualClockState ω) : Option Nat → VirtualClockState ω
  | some id => clock.cancelTimer id
  | none => clock

namespace VirtualClockState

variable {clock : VirtualClockState ω} {id : Option Nat} {t : VirtualTimer ω}

@[simp] theorem without_current : (clock.without id).current = clock.current := by
  cases id <;> rfl

@[simp] theorem without_nextTimerId : (clock.without id).nextTimerId = clock.nextTimerId := by
  cases id <;> rfl

theorem mem_without : t ∈ (clock.without id).timers ↔ t ∈ clock.timers ∧ id ≠ some t.id := by
  cases id with
  | none => simp [without]
  | some id =>
    have hne : some id ≠ some t.id ↔ t.id ≠ id := by
      rw [ne_eq, Option.some.injEq, eq_comm]
    simp [without, cancelTimer, hne]

theorem without_sublist : (clock.without id).timers.Sublist clock.timers := by
  cases id with
  | none => exact List.Sublist.refl _
  | some id => exact List.filter_sublist

end VirtualClockState

namespace VirtualSleepFuture

variable {clock : VirtualClockState ω} {f : VirtualSleepFuture ω} {waker : ω} {t : VirtualTimer ω}

theorem releaseTimer_some : f.releaseTimer (some clock) = some (clock.without f.timerId) := by
  unfold releaseTimer
  cases f.timerId <;> rfl

theorem releaseTimer_none : f.releaseTimer none = none := by
  unfold releaseTimer
  cases f.timerId <;> rfl

theorem register_eq : f.register clock waker =
      (((clock.without f.timerId).registerTimer f.deadline waker).1,
        { f with timerId := some clock.nextTimerId, cachedWaker := some waker }) := by
  unfold register
  cases f.timerId <;> rfl

theorem of_needsRegister [DecidableEq ω] (h : f.needsRegister waker = false) :
    f.timerId ≠ none ∧ f.cachedWaker = some waker := by
  unfold needsRegister at h
  split at h
  · next hid hcached => simp_all
  · cases h

/-- A poll leaves the timers of others where they are. -/
theorem mem_pollAt [DecidableEq ω] (ht : t ∈ clock.timers) (hne : f.timerId ≠ some t.id) :
    t ∈ (f.pollAt clock waker).1.timers := by
  unfold pollAt
  split
  · exact ht
  split
  · split <;> exact ht
  split
  · show t ∈ (f.register clock waker).1.timers
    exact List.mem_cons_of_mem _ (VirtualClockState.mem_without.mpr ⟨ht, hne⟩)
  · exact ht

end VirtualSleepFuture

namespace Timed

variable {clock clock' : VirtualClockState ω} {sleeps : List (Option (Sleeper ω))} {i : Nat}
  {a b : Sleeper ω} {x : Option (Sleeper ω)}

section
variable (h : Timed clock sleeps) (hi : sleeps[i]? = some (some a))
include h hi

/-- A sleep that is over gives its timer back. -/
theorem release (hx : ∀ b, x = some b → b.future.timerId = none ∧ b.future.completed = true) :
    Timed (clock.without a.future.timerId) (sleeps.set i x) := by
  refine h.update hi VirtualClockState.without_current
    (Nat.le_of_eq VirtualClockState.without_nextTimerId.symm)
    (h.single.sublist VirtualClockState.without_sublist)
    (fun t ht hne => VirtualClockState.mem_without.mpr ⟨ht, hne⟩)
    (fun t ht => .inl (VirtualClockState.mem_without.mp ht)) ?_ ?_
  · intro b hb hwaits
    have hcompleted := hwaits.2.1
    rw [(hx b hb).2] at hcompleted
    cases hcompleted
  · intro b id hb hbid
    rw [(hx b hb).1] at hbid
    cases hbid

/-- A sleep that does not wait changes, and still does not. -/
theorem settle (ha : ¬ a.Waits clock.current) (hb : ¬ b.Waits clock.current)
    (hid : ∀ id, b.future.timerId = some id → a.future.timerId = some id) :
    Timed clock (sleeps.set i (some b)) := by
  refine h.update hi rfl (Nat.le_refl _) h.single (fun t ht _ => ht)
    (fun t ht => .inl ⟨ht, h.no_timer hi ha ht⟩) ?_ ?_
  · intro c hc hwaits
    cases hc
    exact absurd hwaits hb
  · intro c id hc hcid
    cases hc
    exact .inl (hid id hcid)

theorem register (hwaits : b.Waits clock.current)
    (hfuture : b.future = (a.future.register clock waker).2)
    (hlatest : b.latest = some waker) :
    Timed (a.future.register clock waker).1 (sleeps.set i (some b)) := by
  have htimers : (a.future.register clock waker).1.timers =
      ⟨clock.nextTimerId, a.future.deadline, waker⟩ ::
        (clock.without a.future.timerId).timers := by
    simp [VirtualSleepFuture.register_eq, VirtualClockState.registerTimer]
  rw [VirtualSleepFuture.register_eq] at hfuture
  have hbid : b.future.timerId = some clock.nextTimerId := by rw [hfuture]
  have hnext : (a.future.register clock waker).1.nextTimerId = clock.nextTimerId + 1 := by
    simp [VirtualSleepFuture.register_eq, VirtualClockState.registerTimer]
  refine h.update hi ?_ (by omega) ?_ ?_ ?_ ?_ ?_
  · simp [VirtualSleepFuture.register_eq, VirtualClockState.registerTimer]
  · rw [htimers]
    refine List.Pairwise.cons ?_ (h.single.sublist VirtualClockState.without_sublist)
    intro t ht heq
    -- the ids of the timers that are there have been given out
    obtain ⟨j, c, hj, -, hcid⟩ := h.owned t (VirtualClockState.mem_without.mp ht).1
    have := h.fresh j c t.id hj hcid
    simp only at heq
    omega
  · intro t ht hne
    exact List.mem_cons_of_mem _ (VirtualClockState.mem_without.mpr ⟨ht, hne⟩)
  · intro t ht
    rw [htimers] at ht
    rcases List.mem_cons.mp ht with rfl | ht
    · exact .inr ⟨b, rfl, hwaits, hbid⟩
    · exact .inl (VirtualClockState.mem_without.mp ht)
  · intro c hc _
    cases hc
    refine ⟨clock.nextTimerId, waker, hbid, hlatest, by rw [hfuture], ?_⟩
    rw [htimers, hfuture]
    exact List.mem_cons_self
  · intro c id hc hcid
    cases hc
    rw [hbid] at hcid
    cases hcid
    exact .inr ⟨Nat.le_refl _, by omega⟩

theorem same (hfuture : b.future = a.future) (hlatest : b.latest = a.latest) :
    Timed clock (sleeps.set i (some b)) := by
  have hwaits : b.Waits clock.current ↔ a.Waits clock.current := by
    unfold Sleeper.Waits
    rw [hfuture, hlatest]
  refine h.update hi rfl (Nat.le_refl _) h.single (fun t ht _ => ht) ?_ ?_ ?_
  · intro t ht
    by_cases hid : a.future.timerId = some t.id
    · have ha : a.Waits clock.current := by
        by_cases ha : a.Waits clock.current
        · exact ha
        · exact absurd hid (h.no_timer hi ha ht)
      exact .inr ⟨b, rfl, hwaits.mpr ha, by rw [hfuture, hid]⟩
    · exact .inl ⟨ht, hid⟩
  · intro c hc hc'
    cases hc
    rw [hfuture, hlatest]
    exact h.armed i a hi (hwaits.mp hc')
  · intro c id hc hcid
    cases hc
    exact .inl (hfuture ▸ hcid)

end

/-- **One poll**: the timers are those of the sleeps that wait. -/
theorem pollAt [DecidableEq ω] (h : Timed clock sleeps) (hi : sleeps[i]? = some (some a))
    (hplain : a.Plain) :
    Timed (a.future.pollAt clock waker).1
      (sleeps.set i (some (a.polled (some clock) waker (a.future.pollAt clock waker).2.1
        (a.future.pollAt clock waker).2.2))) := by
  unfold VirtualSleepFuture.pollAt
  split
  · exact h.same hi rfl rfl
  next hcompleted =>
  split
  · next hdue =>
    have hreached : ¬ clock.current < a.future.deadline := Int.not_lt.mpr hdue
    have ha : ¬ a.Waits clock.current := fun hwaits => hreached hwaits.2.2
    split
    · exact h.settle hi ha (fun hwaits => hreached hwaits.2.2) fun _ hid => hid
    · exact h.settle hi ha (fun hwaits => hreached hwaits.2.2) fun _ hid => by cases hid
  next hdue =>
  have hahead : clock.current < a.future.deadline := Int.not_le.mp hdue
  have hopen : a.future.completed = false := by simpa using hcompleted
  split
  · refine h.register hi ⟨rfl, ?_, ?_⟩ rfl rfl
    · simpa [Sleeper.polled, VirtualSleepFuture.register_eq] using hopen
    · simpa [Sleeper.polled, VirtualSleepFuture.register_eq] using hahead
  · next hneeds =>
    obtain ⟨hid, hcached⟩ := VirtualSleepFuture.of_needsRegister (Bool.not_eq_true _ ▸ hneeds)
    have hlatest : a.latest ≠ none := fun hnone => hid (hplain.unpolled hnone)
    have hwaits : a.Waits clock.current := ⟨Option.isSome_iff_ne_none.mpr hlatest, hopen, hahead⟩
    obtain ⟨_, w, -, hw, hcached', -⟩ := h.armed i a hi hwaits
    rw [hcached] at hcached'
    cases hcached'
    exact h.same hi rfl hw.symm

theorem advanceTo (h : Timed clock sleeps) (target : Int) :
    Timed (clock.advanceTo target).1 sleeps := by
  have hcurrent := advanceTo_current clock target
  have hleft : (clock.advanceTo target).1.timers.Perm (clock.timers.filter fun timer =>
      !decide (timer.deadline ≤ (clock.advanceTo target).1.current)) :=
    (clock.drained (clock.advanceTo target).1.current).left_perm
  have hmem (t : VirtualTimer ω) : t ∈ (clock.advanceTo target).1.timers ↔
      t ∈ clock.timers ∧ (clock.advanceTo target).1.current < t.deadline := by
    rw [hleft.mem_iff, List.mem_filter]
    simp
  refine ⟨h.distinct, h.fresh, ?_, ?_, ?_⟩
  · exact hleft.symm.pairwise (h.single.sublist List.filter_sublist) fun hne => Ne.symm hne
  · intro i a hi hwaits
    have hbefore : a.Waits clock.current := ⟨hwaits.1, hwaits.2.1, by have := hwaits.2.2; omega⟩
    obtain ⟨id, w, hid, hlatest, hcached, hin⟩ := h.armed i a hi hbefore
    exact ⟨id, w, hid, hlatest, hcached, (hmem _).mpr ⟨hin, hwaits.2.2⟩⟩
  · intro t ht
    obtain ⟨hold, hahead⟩ := (hmem t).mp ht
    obtain ⟨i, a, hi, hwaits, hid⟩ := h.owned t hold
    obtain ⟨id, w, hid', -, -, hin⟩ := h.armed i a hi hwaits
    rw [hid] at hid'
    cases hid'
    -- the timer is the one its owner has registered
    have heq := h.eq_of_id hold hin rfl
    have hdeadline : t.deadline = a.future.deadline := congrArg VirtualTimer.deadline heq
    exact ⟨i, a, hi, ⟨hwaits.1, hwaits.2.1, hdeadline ▸ hahead⟩, hid⟩

theorem addSleep (h : Timed clock sleeps) (deadline : Int) :
    Timed clock (sleeps ++ [some (.new deadline)]) := by
  have hget (i : Nat) (a : Sleeper ω)
      (hi : (sleeps ++ [some (.new deadline)])[i]? = some (some a)) :
      sleeps[i]? = some (some a) ∨ a = .new deadline := by
    rcases mem_of_push hi with hi | ⟨-, heq⟩
    · exact .inl hi
    · exact .inr (Option.some.inj heq)
  have hold (i : Nat) (a : Sleeper ω) (hi : (sleeps ++ [some (.new deadline)])[i]? = some (some a))
      (hid : a.future.timerId ≠ none) : sleeps[i]? = some (some a) := by
    rcases hget i a hi with hi | rfl
    · exact hi
    · exact absurd rfl hid
  refine ⟨?_, ?_, h.single, ?_, ?_⟩
  · intro i j a b id hi hj ha hb
    exact h.distinct i j a b id (hold i a hi (by simp [ha])) (hold j b hj (by simp [hb])) ha hb
  · intro i a id hi ha
    exact h.fresh i a id (hold i a hi (by simp [ha])) ha
  · intro i a hi hwaits
    rcases hget i a hi with hi | rfl
    · exact h.armed i a hi hwaits
    · exact absurd hwaits.1 (by simp [Sleeper.new])
  · intro t ht
    obtain ⟨i, a, hi, hwaits⟩ := h.owned t ht
    obtain ⟨hlt, -⟩ := List.getElem?_eq_some_iff.mp hi
    exact ⟨i, a, by rw [List.getElem?_append_left hlt, hi], hwaits⟩

/-- A new clock has no timers, and wants no sleeps. -/
theorem new
    (hid : ∀ (i : Nat) (a : Sleeper ω), sleeps[i]? = some (some a) → a.future.timerId = none)
    (hdue : ∀ (i : Nat) (a : Sleeper ω), sleeps[i]? = some (some a) → ¬ a.Waits now) :
    Timed (.new now) sleeps := by
  refine ⟨?_, ?_, List.Pairwise.nil, ?_, fun t ht => by cases ht⟩
  · intro i j a b id hi _ ha
    rw [hid i a hi] at ha
    cases ha
  · intro i a id hi ha
    rw [hid i a hi] at ha
    cases ha
  · intro i a hi hwaits
    exact absurd hwaits (hdue i a hi)

end Timed

/-! ## Every run -/

namespace Sleeper

variable {a : Sleeper ω} {clock : VirtualClockState ω} {waker : ω}

theorem Plain.new (deadline : Int) : (new deadline : Sleeper ω).Plain :=
  ⟨fun _ => rfl, fun _ => rfl, rfl⟩

theorem Plain.cancel (h : a.Plain) (clock : Option (VirtualClockState ω)) :
    ({ a with future := (a.future.cancel clock).2 } : Sleeper ω).Plain :=
  ⟨fun _ => rfl, fun _ => rfl, h.pendedDue⟩

theorem Plain.pollAt [DecidableEq ω] (h : a.Plain) :
    (a.polled (some clock) waker (a.future.pollAt clock waker).2.1
      (a.future.pollAt clock waker).2.2).Plain := by
  unfold VirtualSleepFuture.pollAt
  split
  · exact h
  next hcompleted =>
  have hopen : ¬ a.future.completed = true := hcompleted
  split
  · next hdue =>
    split
    · refine ⟨fun hend => absurd hend hopen, fun hlatest => (by cases hlatest), ?_⟩
      have hreached : a.future.deadline ≤ clock.now := hdue
      simp [polled, hreached]
    · exact ⟨fun _ => rfl, fun _ => rfl, h.pendedDue⟩
  next hdue =>
  have hahead : ¬ a.future.deadline ≤ clock.now := hdue
  split
  · refine ⟨fun hend => ?_, fun hlatest => (by cases hlatest), ?_⟩
    · exact absurd (by simpa [polled, VirtualSleepFuture.register_eq] using hend) hopen
    · simpa [polled, VirtualSleepFuture.register_eq, hahead] using h.pendedDue
  · refine ⟨fun hend => absurd hend hopen, fun hlatest => (by cases hlatest), ?_⟩
    simpa [polled, hahead] using h.pendedDue

theorem Plain.poll [DecidableEq ω] {clock : Option (VirtualClockState ω)} (h : a.Plain) :
    (a.polled clock waker (a.future.poll clock waker).2.1
      (a.future.poll clock waker).2.2).Plain := by
  cases clock with
  | none => exact h
  | some clock => exact h.pollAt

end Sleeper

namespace Sleeping

variable {s s' : Sleeping ω} {l : SleepLabel ω}

/-- Every sleep is as a sleep is. -/
def Plain (s : Sleeping ω) : Prop :=
  ∀ (i : Nat) (a : Sleeper ω), s.sleeps[i]? = some (some a) → a.Plain

/-- The timers of the clock that is enabled. -/
def OnTime (s : Sleeping ω) : Prop := ∀ clock, s.clock = some clock → Timed clock s.sleeps

theorem Plain.set (h : s.Plain) (hx : ∀ a, x = some a → a.Plain)
    (clock : Option (VirtualClockState ω)) : Plain ⟨clock, s.sleeps.set i x⟩ := by
  intro j a hj
  rcases mem_of_set hj with ⟨-, ha⟩ | ⟨-, hj⟩
  · exact hx a ha.symm
  · exact h j a hj

theorem Plain.addSleep [DecidableEq ω] (h : s.Plain) (deadline : Int) :
    (s.addSleep deadline).Plain := by
  intro i a hi
  have hmem : some a ∈ s.sleeps ++ [some (.new deadline)] := List.mem_of_getElem? hi
  rcases List.mem_append.mp hmem with hmem | hmem
  · obtain ⟨j, hj⟩ := List.mem_iff_getElem?.mp hmem
    exact h j a hj
  · simp only [List.mem_singleton, Option.some.injEq] at hmem
    exact hmem ▸ .new deadline

theorem Plain.next [DecidableEq ω] (h : s.Plain) (hs : s.next l = some s') : s'.Plain := by
  cases l with
  | sleep duration =>
    obtain ⟨clock, -, hs⟩ := Option.bind_eq_some_iff.mp hs
    obtain ⟨deadline, -, rfl⟩ := Option.map_eq_some_iff.mp hs
    exact h.addSleep deadline
  | sleepUntil deadline =>
    obtain ⟨clock, -, rfl⟩ := Option.map_eq_some_iff.mp hs
    exact h.addSleep deadline
  | poll i waker =>
    obtain ⟨a, ha, rfl⟩ := Option.map_eq_some_iff.mp hs
    refine h.set (fun b hb => ?_) _
    cases hb
    exact (h i a (Option.join_eq_some_iff.mp ha)).poll
  | cancel i =>
    obtain ⟨a, ha, rfl⟩ := Option.map_eq_some_iff.mp hs
    refine h.set (fun b hb => ?_) _
    cases hb
    exact (h i a (Option.join_eq_some_iff.mp ha)).cancel s.clock
  | drop i =>
    obtain ⟨a, ha, rfl⟩ := Option.map_eq_some_iff.mp hs
    exact h.set (fun b hb => by cases hb) _
  | advance duration =>
    obtain ⟨clock, -, rfl⟩ := Option.map_eq_some_iff.mp hs
    split <;> exact h
  | advanceTo target =>
    obtain ⟨clock, -, rfl⟩ := Option.map_eq_some_iff.mp hs
    exact h
  | disable =>
    cases hs
    exact h
  | enable now =>
    rw [Sleeping.next] at hs
    split at hs <;> (cases hs; exact h)

/-- A clock is enabled when no sleep holds an id of another clock, and none
that has returned `Pending` waits for a time that is yet to come. -/
def enablesAfresh (s : Sleeping ω) : SleepLabel ω → Bool
  | .enable now => s.clock.isSome || s.sleeps.all fun sleep => sleep.all fun a =>
    a.future.timerId.isNone && (a.latest.isNone || a.future.completed || a.future.deadline ≤ now)
  | _ => true

theorem of_enablesAfresh (h : s.enablesAfresh (.enable now) = true) (hclock : s.clock = none)
    {i : Nat} (hi : s.sleeps[i]? = some (some a)) : a.future.timerId = none ∧ ¬ a.Waits now := by
  simp only [enablesAfresh, hclock, Option.isSome_none, Bool.false_or, List.all_eq_true] at h
  have ha := h (some a) (List.mem_of_getElem? hi)
  simp only [Option.all_some, Bool.and_eq_true, Option.isNone_iff_eq_none, Bool.or_eq_true,
    decide_eq_true_eq] at ha
  refine ⟨ha.1, fun ⟨hpended, hopen, hahead⟩ => ?_⟩
  rcases ha.2 with (hnone | hdone) | hdue
  · rw [hnone] at hpended
    cases hpended
  · rw [hdone] at hopen
    cases hopen
  · omega

theorem OnTime.of_some {clock : VirtualClockState ω} {sleeps : List (Option (Sleeper ω))}
    (h : Timed clock sleeps) : OnTime ⟨some clock, sleeps⟩ := by
  intro _ hclock
  cases hclock
  exact h

theorem OnTime.advanceTo {clock : VirtualClockState ω} (h : s.OnTime)
    (hclock : s.clock = some clock)
    (target : Int) : OnTime { s with clock := some (clock.advanceTo target).1 } :=
  .of_some ((h clock hclock).advanceTo target)

theorem OnTime.advance {clock : VirtualClockState ω} (h : s.OnTime)
    (hclock : s.clock = some clock) (hr : clock.advance duration = some r) :
    OnTime { s with clock := some r.1 } := by
  unfold VirtualClockState.advance at hr
  split at hr
  · cases hr
    exact h.advanceTo hclock _
  · obtain ⟨target, -, rfl⟩ := Option.map_eq_some_iff.mp hr
    exact h.advanceTo hclock target

/-- A sleep that is over gives its timer back. -/
theorem OnTime.release (h : s.OnTime) (hi : s.sleeps[i]? = some (some a))
    (hx : ∀ b, x = some b → b.future.timerId = none ∧ b.future.completed = true) :
    OnTime ⟨a.future.releaseTimer s.clock, s.sleeps.set i x⟩ := by
  intro clock' hclock'
  cases hclock : s.clock with
  | none =>
    rw [hclock, VirtualSleepFuture.releaseTimer_none] at hclock'
    cases hclock'
  | some clock =>
    rw [hclock, VirtualSleepFuture.releaseTimer_some] at hclock'
    cases hclock'
    exact (h clock hclock).release hi hx

/-- **One step**: the timers are those of the sleeps that wait. -/
theorem OnTime.next [DecidableEq ω] (h : s.OnTime) (hplain : s.Plain)
    (hfresh : s.enablesAfresh l = true) (hs : s.next l = some s') : s'.OnTime := by
  cases l with
  | sleep duration =>
    obtain ⟨_, -, hs⟩ := Option.bind_eq_some_iff.mp hs
    obtain ⟨deadline, -, rfl⟩ := Option.map_eq_some_iff.mp hs
    exact fun clock hclock => (h clock hclock).addSleep deadline
  | sleepUntil deadline =>
    obtain ⟨_, -, rfl⟩ := Option.map_eq_some_iff.mp hs
    exact fun clock hclock => (h clock hclock).addSleep deadline
  | poll i waker =>
    obtain ⟨a, ha, rfl⟩ := Option.map_eq_some_iff.mp hs
    have hi := Option.join_eq_some_iff.mp ha
    obtain ⟨clock, sleeps⟩ := s
    cases clock with
    | none => exact fun _ hclock => by cases hclock
    | some clock => exact .of_some ((h clock rfl).pollAt hi (hplain i a hi))
  | cancel i =>
    obtain ⟨a, ha, rfl⟩ := Option.map_eq_some_iff.mp hs
    refine h.release (Option.join_eq_some_iff.mp ha) fun b hb => ?_
    cases hb
    exact ⟨rfl, rfl⟩
  | drop i =>
    obtain ⟨a, ha, rfl⟩ := Option.map_eq_some_iff.mp hs
    exact h.release (Option.join_eq_some_iff.mp ha) fun b hb => by cases hb
  | advance duration =>
    obtain ⟨clock, hclock, rfl⟩ := Option.map_eq_some_iff.mp hs
    split
    · next hr => exact h.advance hclock hr
    · exact h
  | advanceTo target =>
    obtain ⟨clock, hclock, rfl⟩ := Option.map_eq_some_iff.mp hs
    exact h.advanceTo hclock target
  | disable =>
    cases hs
    exact fun _ hclock => by cases hclock
  | enable now =>
    rw [Sleeping.next] at hs
    split at hs
    · next hclock =>
      cases hs
      exact .of_some (.new (fun i a hi => (of_enablesAfresh hfresh hclock hi).1)
        fun i a hi => (of_enablesAfresh hfresh hclock hi).2)
    · cases hs
      exact h

theorem plain_of_reaches [DecidableEq ω] (h : (sleepings ω).Reaches allowed s) : s.Plain :=
  h.invariant (P := Plain) (fun i a hi => by cases hi) fun _ _ _ hplain _ hs => hplain.next hs

theorem onTime_of_reaches [DecidableEq ω]
    (h : (sleepings ω).Reaches (fun s l => s.enablesAfresh l = true) s) : s.OnTime := by
  have hinv := h.invariant (P := fun s => s.Plain ∧ s.OnTime)
    ⟨fun i a hi => (by cases hi), fun _ hclock => (by cases hclock)⟩
    fun _ _ _ ⟨hplain, hon⟩ hfresh hs => ⟨hplain.next hs, hon.next hplain hfresh hs⟩
  exact hinv.2

end Sleeping

/-- The sleep that a label polls, cancels or drops. -/
def SleepLabel.target : SleepLabel ω → Option Nat
  | .poll i _ => some i
  | .cancel i => some i
  | .drop i => some i
  | _ => none

/-- Every sleep that waits has exactly one timer, with its deadline and its
latest waker, and there are no others. -/
structure Matched (clock : VirtualClockState ω) (sleeps : List (Option (Sleeper ω))) : Prop where
  one : ∀ (i : Nat) (a : Sleeper ω), sleeps[i]? = some (some a) → a.Waits clock.current →
    ∃ id w, a.future.timerId = some id ∧ a.latest = some w ∧
      clock.timers.filter (fun t => t.id = id) = [⟨id, a.future.deadline, w⟩]
  only : ∀ t ∈ clock.timers, ∃ (i : Nat) (a : Sleeper ω), sleeps[i]? = some (some a) ∧
    a.Waits clock.current ∧ a.future.timerId = some t.id
  apart : ∀ (i j : Nat) (a b : Sleeper ω) (id : Nat), sleeps[i]? = some (some a) →
    sleeps[j]? = some (some b) → a.future.timerId = some id → b.future.timerId = some id → i = j

/-- What is done with one sleep leaves the timer of another where it is. -/
def Sleeping.KeepsOthers [DecidableEq ω] (s : Sleeping ω) : Prop :=
  ∀ (l : SleepLabel ω) (s' : Sleeping ω) (i j : Nat) (b : Sleeper ω)
    (clock : VirtualClockState ω) (t : VirtualTimer ω),
    l.target = some i → s.next l = some s' → j ≠ i → s.sleeps[j]? = some (some b) →
    s.clock = some clock → t ∈ clock.timers → b.future.timerId = some t.id →
    ∃ clock', s'.clock = some clock' ∧ t ∈ clock'.timers

/-- Of timers with distinct ids, one has the id of a timer. -/
theorem filter_id_eq {timers : List (VirtualTimer ω)}
    (h : timers.Pairwise fun t t' => t.id ≠ t'.id) (ht : t ∈ timers) :
    timers.filter (fun u => u.id = t.id) = [t] := by
  induction timers with
  | nil => cases ht
  | cons u timers ih =>
    obtain ⟨hu, hrest⟩ := List.pairwise_cons.mp h
    rcases List.mem_cons.mp ht with rfl | ht
    · have hnone : timers.filter (fun u => u.id = t.id) = [] := by
        rw [List.filter_eq_nil_iff]
        intro v hv heq
        exact hu v hv (of_decide_eq_true heq).symm
      rw [List.filter_cons_of_pos (by simp), hnone]
    · rw [List.filter_cons_of_neg (by simpa using hu t ht), ih hrest ht]

theorem Timed.matched (h : Timed clock sleeps) :
    Matched clock sleeps := by
  refine ⟨fun i a hi hwaits => ?_, h.owned, h.distinct⟩
  obtain ⟨id, w, hid, hlatest, -, hmem⟩ := h.armed i a hi hwaits
  exact ⟨id, w, hid, hlatest, filter_id_eq h.single hmem⟩

theorem Sleeping.OnTime.keepsOthers [DecidableEq ω] {s : Sleeping ω} (h : s.OnTime) :
    s.KeepsOthers := by
  intro l s' i j b clock t htarget hs hji hj hclock ht hbid
  -- the sleep that the step is about has another id
  have hother (a : Sleeper ω) (ha : (s.sleeps[i]?).join = some a) :
      a.future.timerId ≠ some t.id := fun haid =>
    hji ((h clock hclock).distinct j i b a t.id hj (Option.join_eq_some_iff.mp ha) hbid haid)
  have hrelease (a : Sleeper ω) (ha : (s.sleeps[i]?).join = some a) :
      ∃ clock', a.future.releaseTimer s.clock = some clock' ∧ t ∈ clock'.timers := by
    rw [hclock, VirtualSleepFuture.releaseTimer_some]
    exact ⟨_, rfl, VirtualClockState.mem_without.mpr ⟨ht, hother a ha⟩⟩
  cases l with
  | poll i' waker =>
    cases htarget
    obtain ⟨a, ha, rfl⟩ := Option.map_eq_some_iff.mp hs
    refine ⟨(a.future.pollAt clock waker).1, ?_, VirtualSleepFuture.mem_pollAt ht (hother a ha)⟩
    simp only [Sleeping.pollSleep, hclock]
    rfl
  | cancel | drop =>
    cases htarget
    obtain ⟨a, ha, rfl⟩ := Option.map_eq_some_iff.mp hs
    exact hrelease a ha
  | _ => cases htarget

/-- **Sleeps and timers**: where the clock is enabled afresh, the timers of
the clock are those of the sleeps that wait, one for each, and no sleep takes
the timer of another away. -/
theorem sleeps_matched [DecidableEq ω] (s : Sleeping ω)
    (h : (sleepings ω).Reaches (fun s l => s.enablesAfresh l = true) s)
    (clock : VirtualClockState ω) (hclock : s.clock = some clock) :
    Matched clock s.sleeps ∧ s.KeepsOthers :=
  ⟨(Sleeping.onTime_of_reaches h clock hclock).matched, (Sleeping.onTime_of_reaches h).keepsOthers⟩

/-- Two sleeps, one of which is polled again by another task, and a clock that
is enabled anew once they are over. -/
theorem sleeps_matched_run : ∃ (s : Sleeping Nat) (clock : VirtualClockState Nat),
      (sleepings Nat).Reaches (fun s l => s.enablesAfresh l = true) s ∧
      s.clock = some clock ∧ clock.timers.map VirtualTimer.id = [1] ∧
      Matched clock s.sleeps ∧ s.KeepsOthers := by
  have hrun : ((sleepings Nat).restrict Sleeping.enablesAfresh).run (sleepings Nat).start
      [.enable 0, .sleepUntil 10, .sleep 20, .poll 0 7, .poll 1 8, .poll 0 9, .advance 10,
        .poll 0 9, .poll 0 9, .cancel 1, .disable, .enable 5, .sleep 3, .poll 2 7] = some _ := rfl
  have hreach := System.Reaches.start.run hrun
  exact ⟨_, _, hreach, rfl, rfl, sleeps_matched _ hreach _ rfl⟩

/-- A sleep of an earlier clock is dropped, and the timer of another goes with
it. -/
theorem exists_timer_lost :
    ∃ (s s' : Sleeping Nat) (clock clock' : VirtualClockState Nat) (a : Sleeper Nat),
      (sleepings Nat).Reaches (fun _ _ => True) s ∧ s.clock = some clock ∧
      clock.timers = [⟨1, 20, 8⟩] ∧ s.next (.drop 0) = some s' ∧ s'.clock = some clock' ∧
      s'.sleeps[1]? = some (some a) ∧ a.Waits clock'.current ∧ clock'.timers = [] := by
  have hrun : (sleepings Nat).run (sleepings Nat).start
      [.enable 0, .sleepUntil 10, .poll 0 7, .disable, .enable 0, .sleepUntil 20, .poll 1 8] =
        some _ := rfl
  exact ⟨_, _, _, _, _, System.reaches_run hrun, rfl, rfl, rfl, rfl, rfl, ⟨rfl, rfl, by decide⟩,
    rfl⟩

/-! ## The poll after the deadline -/

/-- **The end of a sleep**: with its deadline reached, a sleep is ready at its
next poll exactly when it has already returned `Pending` with the deadline
reached. A `Pending` from before the deadline does not count. -/
theorem poll_ready_iff [DecidableEq ω] (s : Sleeping ω)
    (h : (sleepings ω).Reaches (fun _ _ => True) s) (clock : VirtualClockState ω)
    (hclock : s.clock = some clock) (i : Nat) (a : Sleeper ω) (hi : s.sleeps[i]? = some (some a))
    (hopen : a.future.completed = false) (hdue : a.future.deadline ≤ clock.now) (waker : ω) :
    (a.future.poll s.clock waker).2.2 = .ready ↔ a.pendedDue = true := by
  have hplain := Sleeping.plain_of_reaches h i a hi
  rw [hclock, hplain.pendedDue]
  show (a.future.pollAt clock waker).2.2 = .ready ↔ a.future.yieldedOnce = true
  unfold VirtualSleepFuture.pollAt
  rw [if_neg (by simp [hopen]), if_pos hdue]
  split
  · next hfirst => simpa using hfirst
  · next hyielded => simpa using hyielded

/-- A sleep that is polled twice after its deadline. -/
theorem poll_ready_iff_twice :
    ∃ (s : Sleeping Nat) (clock : VirtualClockState Nat) (a : Sleeper Nat),
      (sleepings Nat).Reaches (fun _ _ => True) s ∧ s.clock = some clock ∧
      s.sleeps[0]? = some (some a) ∧ a.future.completed = false ∧
      a.future.deadline ≤ clock.now ∧ a.pendedDue = true ∧
      (a.future.poll s.clock 8).2.2 = .ready := by
  have hrun : (sleepings Nat).run (sleepings Nat).start
      [.enable 0, .sleep 10, .poll 0 7, .advance 10, .poll 0 8] = some _ := rfl
  have hreach := System.reaches_run hrun
  exact ⟨_, _, _, hreach, rfl, rfl, rfl, by decide, rfl,
    (poll_ready_iff _ hreach _ rfl 0 _ rfl rfl (by decide) 8).mpr rfl⟩

/-- A sleep is polled, its time comes, and the next poll is `Pending` again. -/
theorem exists_pending_again :
    ∃ (s : Sleeping Nat) (clock : VirtualClockState Nat) (a : Sleeper Nat),
      (sleepings Nat).Reaches (fun _ _ => True) s ∧ s.clock = some clock ∧
      s.sleeps[0]? = some (some a) ∧ a.latest.isSome = true ∧ a.future.completed = false ∧
      a.future.deadline ≤ clock.now ∧ (a.future.poll s.clock 7).2.2 = .pending := by
  have hrun : (sleepings Nat).run (sleepings Nat).start
      [.enable 0, .sleep 10, .poll 0 7, .advance 10] = some _ := rfl
  exact ⟨_, _, _, System.reaches_run hrun, rfl, rfl, rfl, rfl, by decide, rfl⟩

end Kimojio.Clock
