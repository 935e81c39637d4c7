import Kimojio.Clock.VirtualSleep

/-!
# Kimojio.Clock.Timeouts

What a longer duration changes. `advance` and `sleep` put a hundred years in
the place of a duration that does not fit, and so come to an earlier time than
with a duration that is longer than that and fits; near the end of time a
hundred years do not fit either, and they panic. `wait_with_timeout` and
`lock_with_timeout` add the duration to the current time and panic if it does
not fit.

A longer duration does what it should as long as it ends before the end of time
(`inOrder_iff`).
-/

namespace Kimojio.Clock

/-! ## Deadlines -/

/-- `clock_now() + timeout`, of an optional timeout; `none` is a panic. -/
def timeoutDeadline (now : Int) : Option Nat → Option (Option Int)
  | none => some none
  | some timeout => (checkedAdd now timeout).map some

/-- The deadline with which `wait_with_timeout` calls `wait_with_deadline`. -/
def waitWithTimeout (now : Int) (timeout : Option Nat) : Option (Option Int) :=
  timeoutDeadline now timeout

/-- The deadline with which `lock_with_timeout` calls `lock_with_deadline`. -/
def lockWithTimeout (now : Int) (timeout : Option Nat) : Option (Option Int) :=
  timeoutDeadline now timeout

/-! ## Longer durations -/

/-- With the duration `d₂` there is no panic, and at least what there is with `d₁`. -/
def Extends (f : Nat → Option τ) (le : τ → τ → Prop) (d₁ d₂ : Nat) : Prop :=
  ∃ y, f d₂ = some y ∧ ∀ x, f d₁ = some x → le x y

/-- A later time, at which all timers that fired before have fired. -/
def FiresMore (r₁ r₂ : VirtualClockState ω × Nat × List ω) : Prop :=
  r₁.1.current ≤ r₂.1.current ∧ r₁.2.2 <+: r₂.2.2

/-- A later deadline. -/
def LaterDeadline (t₁ t₂ : Option Int) : Prop :=
  ∀ x, t₁ = some x → ∃ y, t₂ = some y ∧ x ≤ y

/-- What the duration `d₂` changes, against `d₁`. -/
structure InOrder (clock : VirtualClockState ω) (d₁ d₂ : Nat) : Prop where
  advance : Extends clock.advance FiresMore d₁ d₂
  sleep : Extends (Sleeping.sleepDeadline clock.now) (· ≤ ·) d₁ d₂
  wait : Extends (fun d => waitWithTimeout clock.now (some d)) LaterDeadline d₁ d₂
  lock : Extends (fun d => lockWithTimeout clock.now (some d)) LaterDeadline d₁ d₂

section

variable {t : Int} {d d₁ d₂ : Nat}

theorem checkedAdd_of_le (h : t + d ≤ lastInstant) : checkedAdd t d = some (t + d) := if_pos h

theorem checkedAdd_of_lt (h : lastInstant < t + d) : checkedAdd t d = none :=
  if_neg (Int.not_le.mpr h)

theorem sleepDeadline_of_le (h : t + d ≤ lastInstant) :
    Sleeping.sleepDeadline t d = some (t + d) := by
  rw [Sleeping.sleepDeadline, checkedAdd_of_le h]

theorem sleepDeadline_of_lt (h : lastInstant < t + d) :
    Sleeping.sleepDeadline t d = checkedAdd t hundredYears := by
  rw [Sleeping.sleepDeadline, checkedAdd_of_lt h]

/-- `advance` goes to the time that is the deadline of `sleep`. -/
theorem advance_eq (clock : VirtualClockState ω) (d : Nat) :
    clock.advance d = (Sleeping.sleepDeadline clock.now d).map clock.advanceTo := by
  unfold VirtualClockState.advance Sleeping.sleepDeadline VirtualClockState.now
  cases checkedAdd clock.current d <;> rfl

/-- The deadline of `sleep` is in order up to the end of time, and beyond it as long as the
hundred years are not the shorter duration. -/
theorem sleep_extends_iff (h : d₁ ≤ d₂) : Extends (Sleeping.sleepDeadline t) (· ≤ ·) d₁ d₂ ↔
      t + d₂ ≤ lastInstant ∨
        (t + hundredYears ≤ lastInstant ∧ (d₁ ≤ hundredYears ∨ lastInstant < t + d₁)) := by
  by_cases hfits : t + d₂ ≤ lastInstant
  · have hfits₁ : t + d₁ ≤ lastInstant := by omega
    refine ⟨fun _ => .inl hfits, fun _ => ⟨t + d₂, sleepDeadline_of_le hfits, fun x hx => ?_⟩⟩
    rw [sleepDeadline_of_le hfits₁] at hx
    cases hx
    omega
  · rw [Extends, sleepDeadline_of_lt (Int.not_le.mp hfits)]
    by_cases hyears : t + hundredYears ≤ lastInstant
    · rw [checkedAdd_of_le hyears]
      by_cases hfits₁ : t + d₁ ≤ lastInstant
      · rw [sleepDeadline_of_le hfits₁]
        simp
        omega
      · rw [sleepDeadline_of_lt (Int.not_le.mp hfits₁), checkedAdd_of_le hyears]
        simp
        omega
    · rw [checkedAdd_of_lt (Int.not_le.mp hyears)]
      simp
      omega

-- near the end of time the hundred years do not fit either
example : Sleeping.sleepDeadline lastInstant 1 = none := by decide +kernel

theorem timeout_extends_iff (h : d₁ ≤ d₂) :
    Extends (fun d => timeoutDeadline t (some d)) LaterDeadline d₁ d₂ ↔ t + d₂ ≤ lastInstant := by
  unfold Extends timeoutDeadline
  by_cases hfits : t + d₂ ≤ lastInstant
  · have hfits₁ : t + d₁ ≤ lastInstant := by omega
    simp [checkedAdd_of_le hfits, checkedAdd_of_le hfits₁, LaterDeadline, hfits]
    omega
  · simp [checkedAdd_of_lt (Int.not_le.mp hfits), hfits]

theorem le_of_sleepDeadline (h : Sleeping.sleepDeadline t d = some deadline) : t ≤ deadline := by
  by_cases hfits : t + d ≤ lastInstant
  · rw [sleepDeadline_of_le hfits] at h
    cases h
    omega
  · rw [sleepDeadline_of_lt (Int.not_le.mp hfits), checkedAdd] at h
    split at h
    · cases h
      omega
    · cases h

end

/-- Timers that are due at an earlier time are due at a later one, and come first. -/
theorem Agrees.firesMore (h : Agrees clock l) (hle : t₁ ≤ t₂) :
    FiresMore (clock.advanceTo t₁) (clock.advanceTo t₂) := by
  refine ⟨?_, _, h.advanceTo_advanceTo hle⟩
  rw [advanceTo_current, advanceTo_current]
  omega

/-- `advance` is in order where the deadline of `sleep` is. -/
theorem Agrees.advance_extends_iff (h : Agrees clock l) (d₁ d₂ : Nat) :
    Extends clock.advance FiresMore d₁ d₂ ↔
      Extends (Sleeping.sleepDeadline clock.now) (· ≤ ·) d₁ d₂ := by
  constructor
  · rintro ⟨r, hr, hmore⟩
    rw [advance_eq] at hr
    obtain ⟨t₂, ht₂, rfl⟩ := Option.map_eq_some_iff.mp hr
    refine ⟨t₂, ht₂, fun t₁ ht₁ => ?_⟩
    have hcurrent := (hmore (clock.advanceTo t₁) (by rw [advance_eq, ht₁]; rfl)).1
    have hnow := le_of_sleepDeadline ht₁
    have hnow₂ := le_of_sleepDeadline ht₂
    rw [advanceTo_current, advanceTo_current] at hcurrent
    unfold VirtualClockState.now at hnow hnow₂
    omega
  · rintro ⟨t₂, ht₂, hmore⟩
    refine ⟨clock.advanceTo t₂, by rw [advance_eq, ht₂]; rfl, fun r hr => ?_⟩
    rw [advance_eq] at hr
    obtain ⟨t₁, ht₁, rfl⟩ := Option.map_eq_some_iff.mp hr
    exact h.firesMore (hmore t₁ ht₁)

/-- **A longer duration** is in order, at every time that a clock reaches, if and only if it
ends before the end of time. -/
theorem inOrder_iff (start : Int) (s : VirtualClockState ω × Ledger ω)
    (h : (ledgers ω start).Reaches (fun _ _ => True) s) (d₁ d₂ : Nat) (hle : d₁ ≤ d₂) :
    InOrder s.1 d₁ d₂ ↔ s.1.current + d₂ ≤ lastInstant := by
  have hsleep := sleep_extends_iff (t := s.1.current) hle
  constructor
  · intro horder
    exact (timeout_extends_iff hle).mp horder.wait
  · intro hfits
    have hextends := hsleep.mpr (.inl hfits)
    exact {
      advance := ((agrees_of_reaches h).advance_extends_iff d₁ d₂).mpr hextends
      sleep := hextends
      wait := (timeout_extends_iff hle).mpr hfits
      lock := (timeout_extends_iff hle).mpr hfits }

/-- A timer that fires with the longer duration. -/
theorem inOrder_timer : ∃ s, (ledgers Nat 0).Reaches (fun _ _ => True) s ∧
    s.1.pendingTimers = 1 ∧ InOrder s.1 5 10 := by
  have hrun : (ledgers Nat 0).run (ledgers Nat 0).start [.registerTimer 10 7] = some _ := rfl
  have hreach := System.reaches_run hrun
  exact ⟨_, hreach, rfl, (inOrder_iff 0 _ hreach 5 10 (by decide)).mpr (by decide)⟩

/-- The longest duration: `Duration::MAX`, in nanoseconds. -/
def durationMax : Nat := 18446744073709551615 * 1000000000 + 999999999

/-- A timer in 150 years fires when the clock is advanced by 200 years, but not when it is
advanced by the longest duration. The deadlines of `sleep` are in the same order, and
`wait_with_timeout` panics with the longest duration. -/
theorem exists_not_inOrder : ∃ s, (ledgers Nat 0).Reaches (fun _ _ => True) s ∧
      2 * hundredYears ≤ durationMax ∧
      ((s.1.advance (2 * hundredYears)).map fun r => r.2.2) = some [7] ∧
      ((s.1.advance durationMax).map fun r => r.2.2) = some [] ∧
      Sleeping.sleepDeadline s.1.now (2 * hundredYears) = some (2 * hundredYears) ∧
      Sleeping.sleepDeadline s.1.now durationMax = some hundredYears ∧
      waitWithTimeout s.1.now (some durationMax) = none := by
  have hrun : (ledgers Nat 0).run (ledgers Nat 0).start
      [.registerTimer (hundredYears + hundredYears / 2) 7] = some _ := rfl
  exact ⟨_, System.reaches_run hrun, by decide +kernel, by decide +kernel, by decide +kernel,
    by decide +kernel, by decide +kernel, by decide +kernel⟩

end Kimojio.Clock
