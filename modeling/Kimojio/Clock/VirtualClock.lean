import Kimojio.PriorityQueue
import Kimojio.Transition
import Mathlib.Algebra.Group.Int.Defs
import Mathlib.Algebra.Group.Nat.Defs

/-!
# Kimojio.Clock.VirtualClock

The state of the virtual clock: the virtual time, and the timers that have
not fired yet, in a `BinaryHeap` whose order is reversed.

The heap is given by the bag of its elements, from which `pop` takes the
greatest. What the clock is for is kept in a `Ledger` that knows nothing of
the heap: the timers in the order of their registration, each of which is
outstanding, canceled or fired.

An `Instant` is given in nanoseconds; its seconds are a signed 64-bit number.
A `TimerId` is a 64-bit number that goes up by one with each registration, and
does not come to its end.
-/

namespace Kimojio.Clock

/-- The last instant: `i64::MAX` seconds and 999,999,999 nanoseconds. -/
def lastInstant : Int := (2 ^ 63 - 1) * 10 ^ 9 + 999999999

/-- `Instant::checked_add`, with a duration in nanoseconds. -/
def checkedAdd (t : Int) (duration : Nat) : Option Int :=
  if t + duration ≤ lastInstant then some (t + duration) else none

/-- The hundred years that stand for a duration for which there is no instant. -/
def hundredYears : Nat := 365 * 24 * 3600 * 100 * 10 ^ 9

/-- A timer. Wakers are given by any type. -/
structure VirtualTimer (ω : Type u) where
  id : Nat
  deadline : Int
  waker : ω
  deriving DecidableEq, Repr

namespace VirtualTimer

/-- The order of the heap, which is reversed: the least deadline, and the
least id, has the highest priority. -/
def cmp (self other : VirtualTimer ω) : Ordering :=
  (compare other.deadline self.deadline).then (compare other.id self.id)

def le (self other : VirtualTimer ω) : Bool := (self.cmp other).isLE

end VirtualTimer

structure VirtualClockState (ω : Type u) where
  current : Int
  timers : List (VirtualTimer ω)
  nextTimerId : Nat

namespace VirtualClockState

open PriorityQueue

def new (start : Int) : VirtualClockState ω := ⟨start, [], 1⟩

def now (clock : VirtualClockState ω) : Int := clock.current

/-- The loop of `advance_to` takes at most all timers out. -/
def advanceTo (clock : VirtualClockState ω) (target : Int) : VirtualClockState ω × Nat × List ω :=
  let current := if target > clock.current then target else clock.current
  let (expired, timers) :=
    drain VirtualTimer.le (fun timer => timer.deadline ≤ current) clock.timers.length clock.timers
  let wakers := expired.map VirtualTimer.waker
  ({ clock with current, timers }, wakers.length, wakers)

/-- `advance`, which panics where there is no instant a hundred years later
either. -/
def advance (clock : VirtualClockState ω) (duration : Nat) :
    Option (VirtualClockState ω × Nat × List ω) :=
  match checkedAdd clock.current duration with
  | some newTime => some (clock.advanceTo newTime)
  | none => (checkedAdd clock.current hundredYears).map clock.advanceTo

/-- `advance` does not panic. -/
def canAdvance (clock : VirtualClockState ω) (duration : Nat) : Prop :=
  clock.current + duration ≤ lastInstant ∨ clock.current + hundredYears ≤ lastInstant

/-- The time that `advance` goes to. -/
def newTime (clock : VirtualClockState ω) (duration : Nat) : Int :=
  if clock.current + duration ≤ lastInstant then clock.current + duration
  else clock.current + hundredYears

def nextDeadline (clock : VirtualClockState ω) : Option Int :=
  (peek VirtualTimer.le clock.timers).map VirtualTimer.deadline

def pendingTimers (clock : VirtualClockState ω) : Nat := clock.timers.length

def registerTimer (clock : VirtualClockState ω) (deadline : Int) (waker : ω) :
    VirtualClockState ω × Nat :=
  ({ clock with
      timers := ⟨clock.nextTimerId, deadline, waker⟩ :: clock.timers
      nextTimerId := clock.nextTimerId + 1 },
    clock.nextTimerId)

def cancelTimer (clock : VirtualClockState ω) (id : Nat) : VirtualClockState ω :=
  { clock with timers := clock.timers.filter fun timer => timer.id ≠ id }

end VirtualClockState

inductive ClockLabel (ω : Type u) where
  | registerTimer (deadline : Int) (waker : ω)
  | cancelTimer (id : Nat)
  | advance (duration : Nat)
  | advanceTo (target : Int)
  deriving DecidableEq, Repr

/-- A clock that starts at the instant `start`. There is no step where `advance`
panics. -/
def clocks (ω : Type u) (start : Int) : System (VirtualClockState ω) (ClockLabel ω) where
  start := .new start
  next clock
    | .registerTimer deadline waker => some (clock.registerTimer deadline waker).1
    | .cancelTimer id => some (clock.cancelTimer id)
    | .advance duration => (clock.advance duration).map Prod.fst
    | .advanceTo target => some (clock.advanceTo target).1

/-! ## What the clock is for -/

/-- What has become of the timers, in the order of their registration. -/
structure Ledger (ω : Type u) where
  registered : List (VirtualTimer ω)
  outstanding : List (VirtualTimer ω)
  canceled : List (VirtualTimer ω)
  fired : List (VirtualTimer ω)
  /-- The wakers that all the calls have returned. -/
  returned : List ω

namespace Ledger

def empty : Ledger ω := ⟨[], [], [], [], []⟩

def register (l : Ledger ω) (timer : VirtualTimer ω) : Ledger ω :=
  { l with
    registered := l.registered ++ [timer]
    outstanding := l.outstanding ++ [timer] }

def cancel (l : Ledger ω) (id : Nat) : Ledger ω :=
  { l with
    outstanding := l.outstanding.filter fun timer => timer.id ≠ id
    canceled := l.canceled ++ l.outstanding.filter fun timer => !decide (timer.id ≠ id) }

/-- The timers that are due by the instant `now`. -/
def due (l : Ledger ω) (now : Int) : List (VirtualTimer ω) :=
  l.outstanding.filter fun timer => timer.deadline ≤ now

def fire (l : Ledger ω) (now : Int) (wakers : List ω) : Ledger ω :=
  { l with
    outstanding := l.outstanding.filter fun timer => !decide (timer.deadline ≤ now)
    fired := l.fired ++ l.due now
    returned := l.returned ++ wakers }

/-- What a call adds to the ledger. -/
def note (clock : VirtualClockState ω) (a : ClockLabel ω) (l : Ledger ω) : Ledger ω :=
  match a with
  | .registerTimer deadline waker => l.register ⟨clock.nextTimerId, deadline, waker⟩
  | .cancelTimer id => l.cancel id
  | .advance duration =>
    match clock.advance duration with
    | some (clock, _, wakers) => l.fire clock.current wakers
    | none => l
  | .advanceTo target =>
    let (clock, _, wakers) := clock.advanceTo target
    l.fire clock.current wakers

end Ledger

/-- The clock with its ledger. -/
def ledgers (ω : Type u) (start : Int) : System (VirtualClockState ω × Ledger ω) (ClockLabel ω) :=
  (clocks ω start).recording .empty Ledger.note

/-! ## The order of the timers -/

namespace VirtualTimer

/-- The timer `a` fires before the timer `b`: it has the earlier deadline, or
was registered earlier. -/
def Before (a b : VirtualTimer ω) : Prop :=
  a.deadline < b.deadline ∨ a.deadline = b.deadline ∧ a.id < b.id

variable {a b c : VirtualTimer ω}

theorem le_iff :
    a.le b = true ↔ b.deadline < a.deadline ∨ b.deadline = a.deadline ∧ b.id ≤ a.id := by
  unfold le cmp
  rcases Int.lt_trichotomy b.deadline a.deadline with hlt | heq | hgt
  · rw [Int.compare_eq_lt.mpr hlt]
    simp [Ordering.then, hlt]
  · rw [Int.compare_eq_eq.mpr heq]
    simp [Ordering.then, heq, Nat.isLE_compare]
  · rw [Int.compare_eq_gt.mpr hgt]
    have hnot : ¬ (b.deadline < a.deadline ∨ b.deadline = a.deadline ∧ b.id ≤ a.id) := by omega
    simp [Ordering.then, hnot]

theorem le_total (a b : VirtualTimer ω) : a.le b = true ∨ b.le a = true := by
  rw [le_iff, le_iff]
  omega

theorem le_trans (a b c : VirtualTimer ω) (hab : a.le b = true) (hbc : b.le c = true) :
    a.le c = true := by
  rw [le_iff] at *
  omega

/-- Timers of different ids come out one before the other. -/
theorem before_of_le (h : b.le a = true) (hid : a.id ≠ b.id) : a.Before b := by
  rw [le_iff] at h
  unfold Before
  omega

end VirtualTimer

/-- Timers with distinct ids: those of one id are one timer. -/
theorem eq_of_pairwise_ne {timers : List (VirtualTimer ω)}
    (h : timers.Pairwise fun a b => a.id ≠ b.id) (ha : a ∈ timers) (hb : b ∈ timers)
    (hid : a.id = b.id) : a = b := by
  have hdistinct := List.pairwise_iff_getElem.mp h
  obtain ⟨i, hi, rfl⟩ := List.getElem_of_mem ha
  obtain ⟨j, hj, rfl⟩ := List.getElem_of_mem hb
  rcases Nat.lt_trichotomy i j with hlt | rfl | hgt
  · exact absurd hid (hdistinct i j hi hj hlt)
  · rfl
  · exact absurd hid.symm (hdistinct j i hj hi hgt)

/-! ## Every run -/

open PriorityQueue

/-- The clock and its ledger agree. -/
structure Agrees (clock : VirtualClockState ω) (l : Ledger ω) : Prop where
  timers : clock.timers.Perm l.outstanding
  outstanding : l.outstanding.Sublist l.registered
  ids : l.registered.Pairwise fun a b => a.id < b.id
  fresh : ∀ timer ∈ l.registered, timer.id < clock.nextTimerId
  settled : l.registered.Perm (l.fired ++ l.canceled ++ l.outstanding)
  returned : l.returned.Perm (l.fired.map VirtualTimer.waker)

/-- What an advance of the clock to the instant `clock'.current` returns: the
wakers of the timers that are due, in order. -/
structure Advances (clock : VirtualClockState ω) (l : Ledger ω)
    (r : VirtualClockState ω × Nat × List ω) : Prop where
  forwards : clock.current ≤ r.1.current
  count : r.2.1 = r.2.2.length
  due : ∃ due : List (VirtualTimer ω), r.2.2 = due.map VirtualTimer.waker ∧
    due.Perm (l.due r.1.current) ∧
    due.Pairwise VirtualTimer.Before

variable {clock clock' : VirtualClockState ω} {l : Ledger ω}

/-- The ids of the timers are distinct, in whatever order they are. -/
theorem Agrees.distinct (h : Agrees clock l) : clock.timers.Pairwise fun a b => a.id ≠ b.id := by
  have hpairwise : l.outstanding.Pairwise fun a b => a.id ≠ b.id :=
    (h.ids.sublist h.outstanding).imp fun hlt => Nat.ne_of_lt hlt
  exact h.timers.symm.pairwise hpairwise fun hne => Ne.symm hne

theorem VirtualClockState.drained (clock : VirtualClockState ω) (now : Int) :
    Drained VirtualTimer.le (fun timer => timer.deadline ≤ now) clock.timers
      (drain VirtualTimer.le (fun timer => timer.deadline ≤ now) clock.timers.length clock.timers).1
      (drain VirtualTimer.le (fun timer => timer.deadline ≤ now) clock.timers.length
        clock.timers).2 := by
  refine drain_spec VirtualTimer.le_total VirtualTimer.le_trans ?_ (Nat.le_refl _)
  intro a b hle ha
  rw [VirtualTimer.le_iff] at hle
  simp only [decide_eq_true_eq] at ha ⊢
  omega

/-- What comes out of the loop is in order. -/
theorem Agrees.drained_before (h : Agrees clock l)
    (hdrained : Drained VirtualTimer.le p clock.timers out left) :
    out.Pairwise VirtualTimer.Before := by
  have hdistinct := hdrained.perm.pairwise h.distinct fun hne => Ne.symm hne
  have hdistinct := (List.pairwise_append.mp hdistinct).1
  exact hdrained.sorted.imp₂ (fun _ _ => VirtualTimer.before_of_le) hdistinct

theorem advanceTo_current (clock : VirtualClockState ω) (target : Int) :
    (clock.advanceTo target).1.current = max clock.current target := by
  show (if target > clock.current then target else clock.current) = max clock.current target
  split <;> omega

theorem advanceTo_wakers (clock : VirtualClockState ω) (target : Int) :
    (clock.advanceTo target).2.2 =
      (drain VirtualTimer.le (fun timer => timer.deadline ≤ (clock.advanceTo target).1.current)
        clock.timers.length clock.timers).1.map VirtualTimer.waker := rfl

theorem Agrees.advanceTo (h : Agrees clock l) (target : Int) :
    Advances clock l (clock.advanceTo target) := by
  have hcurrent := advanceTo_current clock target
  refine ⟨by omega, rfl, ?_⟩
  have hdrained := clock.drained (clock.advanceTo target).1.current
  exact ⟨_, rfl, hdrained.out_perm.trans (h.timers.filter _), h.drained_before hdrained⟩

/-- `advance` goes to its new time, or panics. -/
theorem advance_eq_some_iff (clock : VirtualClockState ω) (duration : Nat) :
    clock.advance duration = some r ↔
      clock.canAdvance duration ∧ r = clock.advanceTo (clock.newTime duration) := by
  unfold VirtualClockState.advance VirtualClockState.canAdvance VirtualClockState.newTime checkedAdd
  by_cases hfits : clock.current + duration ≤ lastInstant
  · simp [hfits, eq_comm]
  · by_cases hyears : clock.current + hundredYears ≤ lastInstant
    · simp [hfits, hyears, eq_comm]
    · simp [hfits, hyears]

theorem le_newTime (clock : VirtualClockState ω) (duration : Nat) :
    clock.current ≤ clock.newTime duration := by
  unfold VirtualClockState.newTime
  split <;> omega

/-! ## One call -/

theorem Agrees.registerTimer (h : Agrees clock l) (deadline : Int) (waker : ω) :
    Agrees (clock.registerTimer deadline waker).1
      (l.register ⟨clock.nextTimerId, deadline, waker⟩) where
  timers := (h.timers.cons _).trans (List.perm_append_singleton _ _).symm
  outstanding := h.outstanding.append (List.Sublist.refl _)
  ids := by
    refine List.pairwise_append.mpr ⟨h.ids, List.pairwise_singleton _ _, ?_⟩
    intro a ha b hb
    obtain rfl := List.mem_singleton.mp hb
    exact h.fresh a ha
  fresh := by
    intro timer htimer
    rcases List.mem_append.mp htimer with htimer | htimer
    · exact Nat.lt_succ_of_lt (h.fresh timer htimer)
    · obtain rfl := List.mem_singleton.mp htimer
      exact Nat.lt_succ_self _
  settled := by
    have hsettled := h.settled.append_right [⟨clock.nextTimerId, deadline, waker⟩]
    simpa [Ledger.register] using hsettled
  returned := h.returned

/-- Some of the outstanding timers are settled. -/
theorem perm_settle {registered fired canceled outstanding : List (VirtualTimer ω)}
    (p : VirtualTimer ω → Bool) (h : registered.Perm (fired ++ canceled ++ outstanding)) :
    registered.Perm (fired ++ canceled ++
      (outstanding.filter p ++ outstanding.filter fun timer => !p timer)) :=
  h.trans ((List.filter_append_perm p outstanding).symm.append_left _)

theorem Agrees.cancelTimer (h : Agrees clock l) (id : Nat) :
    Agrees (clock.cancelTimer id) (l.cancel id) where
  timers := h.timers.filter _
  outstanding := List.filter_sublist.trans h.outstanding
  ids := h.ids
  fresh := h.fresh
  settled := by
    refine (perm_settle (fun timer => timer.id ≠ id) h.settled).trans ?_
    unfold Ledger.cancel
    simp only [List.append_assoc]
    exact (List.perm_append_comm.append_left _).append_left _
  returned := h.returned

theorem Agrees.fire {timers : List (VirtualTimer ω)} (h : Agrees clock l)
    (htimers : timers.Perm (clock.timers.filter fun timer => !decide (timer.deadline ≤ current)))
    (hwakers : ∃ due : List (VirtualTimer ω), wakers = due.map VirtualTimer.waker ∧
      due.Perm (l.due current)) :
    Agrees { clock with current, timers } (l.fire current wakers) where
  timers := htimers.trans (h.timers.filter _)
  outstanding := List.filter_sublist.trans h.outstanding
  ids := h.ids
  fresh := h.fresh
  settled := by
    refine (perm_settle (fun timer => timer.deadline ≤ current) h.settled).trans ?_
    unfold Ledger.fire Ledger.due
    simp only [List.append_assoc]
    exact (List.perm_append_comm_assoc _ _ _).append_left _
  returned := by
    obtain ⟨due, rfl, hdue⟩ := hwakers
    unfold Ledger.fire
    simp only [List.map_append]
    exact h.returned.append (hdue.map _)

theorem Agrees.advancedTo (h : Agrees clock l) (target : Int) : Agrees (clock.advanceTo target).1
      (l.fire (clock.advanceTo target).1.current (clock.advanceTo target).2.2) := by
  have hdrained := clock.drained (clock.advanceTo target).1.current
  obtain ⟨due, hwakers, hdue, -⟩ := (h.advanceTo target).due
  exact h.fire hdrained.left_perm ⟨due, hwakers, hdue⟩

theorem Agrees.next (h : Agrees clock l) (hs : (clocks ω start).next clock a = some clock') :
    Agrees clock' (Ledger.note clock a l) := by
  cases a with
  | registerTimer deadline waker =>
    cases hs
    exact h.registerTimer deadline waker
  | cancelTimer id =>
    cases hs
    exact h.cancelTimer id
  | advance duration =>
    obtain ⟨r, hr, rfl⟩ := Option.map_eq_some_iff.mp hs
    obtain ⟨-, rfl⟩ := (advance_eq_some_iff clock duration).mp hr
    simp only [Ledger.note, hr]
    exact h.advancedTo _
  | advanceTo target =>
    cases hs
    exact h.advancedTo target

theorem agrees_of_reaches (h : (ledgers ω start).Reaches (fun _ _ => True) s) : Agrees s.1 s.2 := by
  refine h.invariant (P := fun s => Agrees s.1 s.2) ?_ ?_
  · exact ⟨.refl _, .refl _, .nil, by simp [ledgers, System.recording, Ledger.empty], .refl _,
      .refl _⟩
  · intro s a s' hagrees _ hs
    obtain ⟨clock', hnext, rfl⟩ := Option.map_eq_some_iff.mp hs
    exact hagrees.next hnext

/-! ## Two advances -/

theorem Agrees.eq_of_id (h : Agrees clock l) (ha : a ∈ clock.timers)
    (hb : b ∈ clock.timers) (hid : a.id = b.id) : a = b :=
  eq_of_pairwise_ne h.distinct ha hb hid

/-- **An advance in two steps** returns what the advance in one step does. -/
theorem Agrees.advanceTo_advanceTo (h : Agrees clock l) (hle : t₁ ≤ t₂) :
    (clock.advanceTo t₁).2.2 ++ ((clock.advanceTo t₁).1.advanceTo t₂).2.2 =
      (clock.advanceTo t₂).2.2 := by
  have hcurrent₁ := advanceTo_current clock t₁
  have hcurrent₂ := advanceTo_current (clock.advanceTo t₁).1 t₂
  have hcurrent := advanceTo_current clock t₂
  have hsame : ((clock.advanceTo t₁).1.advanceTo t₂).1.current =
      (clock.advanceTo t₂).1.current := by
    omega
  have hfirst := clock.drained (clock.advanceTo t₁).1.current
  have hsecond := (clock.advanceTo t₁).1.drained ((clock.advanceTo t₁).1.advanceTo t₂).1.current
  have hboth := hfirst.append hsecond ?_ ?_
  · rw [hsame] at hboth
    have honce := clock.drained (clock.advanceTo t₂).1.current
    have hout := hboth.unique honce ?_
    · rw [advanceTo_wakers clock t₁, advanceTo_wakers _ t₂, advanceTo_wakers clock t₂, hsame,
        ← List.map_append, hout]
    · intro a ha b hb hab hba
      rw [VirtualTimer.le_iff] at hab hba
      exact h.eq_of_id ha hb (by omega)
  · intro timer hdue
    simp only [decide_eq_true_eq] at hdue ⊢
    omega
  · intro a b ha hb
    simp only [decide_eq_true_eq, decide_eq_false_iff_not] at ha hb
    rw [VirtualTimer.le_iff]
    omega

/-! ## The clock keeps its schedule -/

/-- What can be relied on in every state of a clock. -/
structure OnSchedule (start : Int) (clock : VirtualClockState ω) (l : Ledger ω) : Prop where
  advance : ∀ duration, clock.canAdvance duration → ∃ r, clock.advance duration = some r ∧
    Advances clock l r ∧ r.1.current = clock.newTime duration
  advanceTo : ∀ target, Advances clock l (clock.advanceTo target) ∧
    (clock.advanceTo target).1.current = max clock.current target
  /-- The ids of the timers go up in the order of their registration. -/
  ids : l.registered.Pairwise fun a b => a.id < b.id
  /-- Every timer is outstanding, canceled or fired, and only one of these. -/
  settled : l.registered.Perm (l.fired ++ l.canceled ++ l.outstanding)
  /-- The wakers that were returned in all are those of the fired timers. -/
  returned : l.returned.Perm (l.fired.map VirtualTimer.waker)
  /-- Time does not go backwards. -/
  forwards : ∀ a clock', (clocks ω start).next clock a = some clock' →
    clock.current ≤ clock'.current
  nextDeadline : ∀ deadline, clock.nextDeadline = some deadline ↔
    (∃ timer ∈ l.outstanding, timer.deadline = deadline) ∧
      ∀ timer ∈ l.outstanding, deadline ≤ timer.deadline
  pendingTimers : clock.pendingTimers = l.outstanding.length
  /-- It makes no difference whether the clock is advanced in one step or two. -/
  twoSteps : ∀ t₁ t₂, t₁ ≤ t₂ →
    (clock.advanceTo t₁).2.2 ++ ((clock.advanceTo t₁).1.advanceTo t₂).2.2 = (clock.advanceTo t₂).2.2

/-- Where `advance` does not panic, it fires what is due at its new time. -/
theorem Agrees.advance (h : Agrees clock l) (hcan : clock.canAdvance duration) :
    ∃ r, clock.advance duration = some r ∧ Advances clock l r ∧
      r.1.current = clock.newTime duration := by
  refine ⟨_, (advance_eq_some_iff clock duration).mpr ⟨hcan, rfl⟩, h.advanceTo _, ?_⟩
  rw [advanceTo_current]
  exact Int.max_eq_right (le_newTime clock duration)

theorem Agrees.forwards (h : Agrees clock l) (hs : (clocks ω start).next clock a = some clock') :
    clock.current ≤ clock'.current := by
  cases a with
  | registerTimer | cancelTimer =>
    cases hs
    exact Int.le_refl _
  | advance duration =>
    obtain ⟨r, hr, rfl⟩ := Option.map_eq_some_iff.mp hs
    obtain ⟨-, rfl⟩ := (advance_eq_some_iff clock duration).mp hr
    exact (h.advanceTo _).forwards
  | advanceTo target =>
    cases hs
    exact (h.advanceTo target).forwards

theorem Agrees.nextDeadline (h : Agrees clock l) (deadline : Int) :
    clock.nextDeadline = some deadline ↔ (∃ timer ∈ l.outstanding, timer.deadline = deadline) ∧
        ∀ timer ∈ l.outstanding, deadline ≤ timer.deadline := by
  unfold VirtualClockState.nextDeadline
  cases hpeek : peek VirtualTimer.le clock.timers with
  | none =>
    have hempty : l.outstanding = [] := (peek_eq_none.mp hpeek ▸ h.timers).nil_eq.symm
    simp [hempty]
  | some top =>
    obtain ⟨htop, hleast⟩ := peek_spec VirtualTimer.le_total VirtualTimer.le_trans hpeek
    have htop : top ∈ l.outstanding := h.timers.mem_iff.mp htop
    have hleast (timer : VirtualTimer ω) (htimer : timer ∈ l.outstanding) :
        top.deadline ≤ timer.deadline := by
      have hle := VirtualTimer.le_iff.mp (hleast timer (h.timers.mem_iff.mpr htimer))
      omega
    constructor
    · rintro ⟨⟩
      exact ⟨⟨top, htop, rfl⟩, hleast⟩
    · rintro ⟨⟨timer, htimer, rfl⟩, hmin⟩
      have hge := hleast timer htimer
      have hle := hmin top htop
      simp only [Option.map_some, Option.some.injEq]
      omega

/-- **The virtual clock keeps its schedule**, after every sequence of calls of which none
panics. -/
theorem clock_on_schedule (start : Int) (s : VirtualClockState ω × Ledger ω)
    (h : (ledgers ω start).Reaches (fun _ _ => True) s) : OnSchedule start s.1 s.2 := by
  have hagrees := agrees_of_reaches h
  exact {
    advance := fun _ hcan => hagrees.advance hcan
    advanceTo := fun target => ⟨hagrees.advanceTo target, advanceTo_current s.1 target⟩
    ids := hagrees.ids
    settled := hagrees.settled
    returned := hagrees.returned
    forwards := fun _ _ hs => hagrees.forwards hs
    nextDeadline := hagrees.nextDeadline
    pendingTimers := hagrees.timers.length_eq
    twoSteps := fun _ _ hle => hagrees.advanceTo_advanceTo hle }

/-- Two timers with one deadline, one of a later deadline that is canceled,
and one that is left over. -/
theorem clock_on_schedule_run :
    ∃ s, (ledgers Nat 0).Reaches (fun _ _ => True) s ∧ s.2.returned = [7, 8] ∧
      s.1.nextDeadline = some 30 ∧ OnSchedule 0 s.1 s.2 := by
  have hrun : (ledgers Nat 0).run (ledgers Nat 0).start
      [.registerTimer 10 7, .registerTimer 30 9, .registerTimer 10 8, .registerTimer 20 6,
        .cancelTimer 4, .advance 25] = some _ := rfl
  have hreach := System.reaches_run hrun
  exact ⟨_, hreach, rfl, rfl, clock_on_schedule 0 _ hreach⟩

/-- At the last instant a timer is due, but `advance` panics and returns no waker. -/
theorem exists_advance_panics :
    ∃ s, (ledgers Nat 0).Reaches (fun _ _ => True) s ∧
      s.2.due s.1.current = [⟨1, lastInstant, 7⟩] ∧ s.1.advance 1 = none := by
  have hrun : (ledgers Nat 0).run (ledgers Nat 0).start
      [.advanceTo lastInstant, .registerTimer lastInstant 7] = some _ := rfl
  exact ⟨_, System.reaches_run hrun, by decide +kernel, by decide +kernel⟩

end Kimojio.Clock
