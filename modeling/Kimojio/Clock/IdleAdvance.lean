import Kimojio.Clock.VirtualClock

/-!
# Kimojio.Clock.IdleAdvance

The callback that advances the virtual clock when no task is ready. At an idle
point `block_on` takes it out of the clock, calls it without a borrow of the
state, and puts it back, unless a flag of the clock says that the callback has
been set or cleared meanwhile.

The flag is a part of the clock. A callback that disables the clock and enables
it again has a new clock, whose flag is not set; it is put into that clock, in
which there should be no callback (`exists_idle_reinstalls`). Otherwise the
callback that is installed is the one that the calls determine
(`idle_installs_iff`), along any run of the loop (`installed_of_reaches`).
-/

namespace Kimojio.Clock

/-! ## The clock and its callback -/

/-- The clock with its callback. Callbacks are given by any type. -/
structure IdleClock (ω φ : Type u) extends VirtualClockState ω where
  idleAdvanceFn : Option φ
  idleAdvanceDirty : Bool

namespace IdleClock

def new (start : Int) : IdleClock ω φ := ⟨.new start, none, false⟩

def setIdleAdvanceFn (f : Option φ) (clock : IdleClock ω φ) : IdleClock ω φ :=
  { clock with idleAdvanceFn := f, idleAdvanceDirty := true }

def takeIdleAdvanceFn (clock : IdleClock ω φ) : Option φ × IdleClock ω φ :=
  (clock.idleAdvanceFn, { clock with idleAdvanceFn := none, idleAdvanceDirty := false })

def restoreIdleAdvanceFn (f : φ) (clock : IdleClock ω φ) : Bool × IdleClock ω φ :=
  if !clock.idleAdvanceDirty then (false, { clock with idleAdvanceFn := some f })
  else (true, clock)

/-- `advance`; `none` is a panic. -/
def advanceBy (duration : Nat) (clock : IdleClock ω φ) : Option (IdleClock ω φ) :=
  (clock.advance duration).map fun r => { clock with toVirtualClockState := r.1 }

end IdleClock

/-- The calls of `operations` that change the clock. -/
inductive ClockCall (φ : Type u) where
  | enable (now : Int)
  | disable
  | setIdleAdvance (f : φ)
  | clearIdleAdvance
  | advance (duration : Nat)
  | advanceTo (target : Int)
  deriving DecidableEq

namespace ClockCall

/-- One call; `none` is a panic, as of all calls but the first two without a clock. -/
def run : ClockCall φ → Option (IdleClock ω φ) → Option (Option (IdleClock ω φ))
  | enable now, none => some (some (.new now))
  | enable _, some clock => some (some clock)
  | disable, _ => some none
  | setIdleAdvance f, clock => clock.map fun clock => some (clock.setIdleAdvanceFn (some f))
  | clearIdleAdvance, clock => clock.map fun clock => some (clock.setIdleAdvanceFn none)
  | advance duration, clock => clock.bind fun clock => (clock.advanceBy duration).map some
  | advanceTo target, clock =>
    clock.map fun clock => some { clock with toVirtualClockState := (clock.advanceTo target).1 }

def runAll : List (ClockCall φ) → Option (IdleClock ω φ) → Option (Option (IdleClock ω φ))
  | [], clock => some clock
  | call :: calls, clock => (call.run clock).bind (runAll calls)

end ClockCall

/-! ## The loop -/

/-- What the loop of `block_on` has to do with the clock. -/
structure IdleLoop (ω φ : Type u) where
  clock : Option (IdleClock ω φ)
  idleAdvanceActive : Bool

namespace IdleLoop

/-- The callback that is called at an idle point. -/
def callback (s : IdleLoop ω φ) : Option φ :=
  if s.idleAdvanceActive then s.clock.bind IdleClock.idleAdvanceFn else none

/-- The callback that is installed, if there is a clock. -/
def installed (s : IdleLoop ω φ) : Option (Option φ) := s.clock.map IdleClock.idleAdvanceFn

/-- Puts the callback back, and says whether it was replaced. -/
def restore (cb : φ) : Option (IdleClock ω φ) → Bool × Option (IdleClock ω φ)
  | some clock => ((clock.restoreIdleAdvanceFn cb).1, some (clock.restoreIdleAdvanceFn cb).2)
  | none => (false, none)

/-- What follows the call of the callback `cb`. -/
def resume (cb : φ) (advanceDuration : Option Nat) (clock : Option (IdleClock ω φ)) :
    Option (IdleLoop ω φ) :=
  let (wasReplaced, clock) := restore cb clock
  match advanceDuration.filter (· ≠ 0), clock with
  | some dur, some clock => (clock.advanceBy dur).map fun clock => ⟨some clock, true⟩
  | some _, none => some ⟨none, true⟩
  | none, clock => some ⟨clock, wasReplaced⟩

/-- An idle point, where no task is ready: the callback makes `calls` and returns
`advanceDuration`. `none` is a panic. -/
def idle (s : IdleLoop ω φ) (calls : List (ClockCall φ)) (advanceDuration : Option Nat) :
    Option (IdleLoop ω φ) :=
  match s.callback with
  | none => some s
  | some cb =>
    (ClockCall.runAll calls (s.clock.map fun clock => clock.takeIdleAdvanceFn.2)).bind
      (resume cb advanceDuration)

/-- Tasks are polled, and make `calls`. -/
def poll (s : IdleLoop ω φ) (calls : List (ClockCall φ)) : Option (IdleLoop ω φ) :=
  (ClockCall.runAll calls s.clock).map fun clock => ⟨clock, true⟩

end IdleLoop

inductive IdleLabel (φ : Type u) where
  | poll (calls : List (ClockCall φ))
  | idle (calls : List (ClockCall φ)) (advanceDuration : Option Nat)
  deriving DecidableEq

def idleLoops (ω φ : Type u) : System (IdleLoop ω φ) (IdleLabel φ) where
  start := ⟨none, true⟩
  next s
    | .poll calls => s.poll calls
    | .idle calls advanceDuration => s.idle calls advanceDuration

/-! ## What the calls determine -/

/-- What a list of calls determines, in order. -/
structure Course (φ : Type u) where
  /-- The callback of the clock, if there is a clock. -/
  installed : Option (Option φ)
  /-- Whether it was set or cleared, since there is this clock. -/
  replaced : Bool
  /-- Whether the last of the calls that changed something made a new clock. -/
  newClock : Bool
  deriving DecidableEq

namespace Course

def start (installed : Option (Option φ)) : Course φ := ⟨installed, false, false⟩

def follow (k : Course φ) : ClockCall φ → Course φ
  | .enable _ => if k.installed.isNone then ⟨some none, false, true⟩ else k
  | .disable => ⟨none, false, false⟩
  | .setIdleAdvance f => ⟨some (some f), true, false⟩
  | .clearIdleAdvance => ⟨some none, true, false⟩
  | .advance _ => k
  | .advanceTo _ => k

def followAll (installed : Option (Option φ)) (calls : List (ClockCall φ)) : Course φ :=
  calls.foldl follow (start installed)

end Course

/-! ## The calls of a running callback -/

section

variable {k : Course φ} {cb : φ} {clock clock' : Option (IdleClock ω φ)} {c : IdleClock ω φ}

/-- The clock while the callback `cb` runs. Its flag says whether the callback was
replaced; if not, the clock has none. -/
structure Runs (cb : φ) (k : Course φ) (c : IdleClock ω φ) : Prop where
  dirty : c.idleAdvanceDirty = k.replaced
  replaced : k.replaced = true → k.newClock = false ∧ k.installed = some c.idleAdvanceFn
  kept : k.replaced = false → c.idleAdvanceFn = none ∧
    k.installed = some (if k.newClock then none else some cb)

/-- The clock, if there is one, while the callback `cb` runs. -/
def Tracks (cb : φ) (k : Course φ) : Option (IdleClock ω φ) → Prop
  | none => k.installed = none ∧ k.newClock = false
  | some c => Runs cb k c

theorem Runs.isNone_eq (h : Runs cb k c) : k.installed.isNone = false := by
  cases hreplaced : k.replaced with
  | false => rw [(h.kept hreplaced).2]; rfl
  | true => rw [(h.replaced hreplaced).2]; rfl

theorem Runs.replace (f : Option φ) : Runs cb ⟨some f, true, false⟩ (c.setIdleAdvanceFn f) where
  dirty := rfl
  replaced := fun _ => ⟨rfl, rfl⟩
  kept := by simp

theorem Runs.clockState (h : Runs cb k c) (v : VirtualClockState ω) :
    Runs cb k { c with toVirtualClockState := v } :=
  ⟨h.dirty, h.replaced, h.kept⟩

theorem advanceBy_eq (h : c.advanceBy duration = some c') :
    ∃ v, c' = { c with toVirtualClockState := v } := by
  obtain ⟨r, -, rfl⟩ := Option.map_eq_some_iff.mp h
  exact ⟨r.1, rfl⟩

/-- **One call** while the callback runs. -/
theorem Tracks.run (h : Tracks cb k clock) (hrun : call.run clock = some clock') :
    Tracks cb (k.follow call) clock' := by
  cases call with
  | enable now =>
    cases clock with
    | none =>
      cases hrun
      rw [Course.follow, h.1, Option.isNone_none, if_pos rfl]
      exact ⟨rfl, by simp, fun _ => ⟨rfl, rfl⟩⟩
    | some c =>
      cases hrun
      rw [Course.follow, Runs.isNone_eq h]
      exact h
  | disable =>
    cases hrun
    exact ⟨rfl, rfl⟩
  | setIdleAdvance f =>
    obtain ⟨c, rfl, rfl⟩ := Option.map_eq_some_iff.mp hrun
    exact Runs.replace (some f)
  | clearIdleAdvance =>
    obtain ⟨c, rfl, rfl⟩ := Option.map_eq_some_iff.mp hrun
    exact Runs.replace none
  | advance duration =>
    obtain ⟨c, rfl, hadvance⟩ := Option.bind_eq_some_iff.mp hrun
    obtain ⟨c', hc', rfl⟩ := Option.map_eq_some_iff.mp hadvance
    obtain ⟨v, rfl⟩ := advanceBy_eq hc'
    exact Runs.clockState h v
  | advanceTo target =>
    obtain ⟨c, rfl, rfl⟩ := Option.map_eq_some_iff.mp hrun
    exact Runs.clockState h _

/-- **All calls**. -/
theorem Tracks.runAll (h : Tracks cb k clock) (hrun : ClockCall.runAll calls clock = some clock') :
    Tracks cb (calls.foldl Course.follow k) clock' := by
  induction calls generalizing k clock with
  | nil =>
    cases hrun
    exact h
  | cons call calls ih =>
    obtain ⟨clock₁, hcall, hrest⟩ := Option.bind_eq_some_iff.mp hrun
    exact ih (h.run hcall) hrest

theorem tracks_take (cb : φ) (c : IdleClock ω φ) :
    Tracks cb (.start (some (some cb))) (some c.takeIdleAdvanceFn.2) :=
  ⟨rfl, by simp [Course.start], fun _ => ⟨rfl, rfl⟩⟩

/-! ## The idle point -/

/-- The callback is put back: what is installed then is what the calls determine, unless
they end in a new clock, in which there should be none. -/
theorem Tracks.restore (h : Tracks cb k clock) :
    ((IdleLoop.restore cb clock).2.map IdleClock.idleAdvanceFn = k.installed ↔ k.newClock = false) ∧
    (k.replaced = true → clock.isSome = true → (IdleLoop.restore cb clock).1 = true) := by
  cases clock with
  | none => simp [IdleLoop.restore, h.1, h.2]
  | some c =>
    cases hreplaced : k.replaced with
    | true =>
      obtain ⟨hnew, hinstalled⟩ := h.replaced hreplaced
      simp [IdleLoop.restore, IdleClock.restoreIdleAdvanceFn, h.dirty, hreplaced, hnew, hinstalled]
    | false =>
      obtain ⟨-, hinstalled⟩ := h.kept hreplaced
      cases hnew : k.newClock <;>
        simp [IdleLoop.restore, IdleClock.restoreIdleAdvanceFn, h.dirty, hreplaced, hinstalled,
          hnew]

/-- The advance of the clock leaves the callback alone; the loop stays active if the callback
was replaced. -/
theorem resume_installed (h : IdleLoop.resume cb advanceDuration clock = some s) :
    s.installed = (IdleLoop.restore cb clock).2.map IdleClock.idleAdvanceFn ∧
      ((IdleLoop.restore cb clock).1 = true → s.idleAdvanceActive = true) := by
  unfold IdleLoop.resume at h
  dsimp only at h
  split at h
  · next dur c hdur hc =>
    obtain ⟨c', hc', rfl⟩ := Option.map_eq_some_iff.mp h
    obtain ⟨v, rfl⟩ := advanceBy_eq hc'
    rw [hc]
    exact ⟨rfl, fun _ => rfl⟩
  · next hc =>
    cases h
    rw [hc]
    exact ⟨rfl, fun _ => rfl⟩
  · cases h
    exact ⟨rfl, id⟩

variable {s s' : IdleLoop ω φ} {calls : List (ClockCall φ)} {advanceDuration : Option Nat}

theorem exists_of_callback (h : s.callback = some cb) :
    ∃ c, s.clock = some c ∧ c.idleAdvanceFn = some cb := by
  obtain ⟨-, h⟩ := Option.ite_none_right_eq_some.mp h
  exact Option.bind_eq_some_iff.mp h

/-- An idle point at which the callback `cb` is called. -/
theorem idle_eq (hcb : s.callback = some cb) (h : s.idle calls advanceDuration = some s') :
    ∃ clock : Option (IdleClock ω φ), Tracks cb (Course.followAll (some (some cb)) calls) clock ∧
        IdleLoop.resume cb advanceDuration clock = some s' := by
  unfold IdleLoop.idle at h
  rw [hcb] at h
  obtain ⟨clock, hrun, hresume⟩ := Option.bind_eq_some_iff.mp h
  obtain ⟨c, hclock, -⟩ := exists_of_callback hcb
  rw [hclock] at hrun
  exact ⟨clock, (tracks_take cb c).runAll hrun, hresume⟩

/-- The callback that replaced `cb` is called at the next idle point. -/
theorem callback_of_replaced (hcb : s.callback = some cb)
    (h : s.idle calls advanceDuration = some s')
    (hreplaced : (Course.followAll (some (some cb)) calls).replaced = true)
    (hf : (Course.followAll (some (some cb)) calls).installed = some (some f)) :
    s'.callback = some f := by
  obtain ⟨clock, htracks, hresume⟩ := idle_eq hcb h
  obtain ⟨hinstalled, hactive⟩ := resume_installed hresume
  cases clock with
  | none => rw [htracks.1] at hf; cases hf
  | some c =>
    obtain ⟨hiff, hrestored⟩ := htracks.restore
    have hsame := hiff.mpr (htracks.replaced hreplaced).1
    rw [← hinstalled, hf] at hsame
    obtain ⟨c', hc', hfn⟩ := Option.map_eq_some_iff.mp hsame
    rw [IdleLoop.callback, if_pos (hactive (hrestored hreplaced rfl)), hc']
    exact hfn

/-- **The idle point**: the callback that is installed after it is the one that the calls of
the callback determine, and a callback that was replaced gets its chance at the next one, if
and only if the calls do not end with a new clock. -/
theorem idle_installs_iff (s s' : IdleLoop ω φ) (cb : φ) (hcb : s.callback = some cb)
    (calls : List (ClockCall φ)) (advanceDuration : Option Nat)
    (h : s.idle calls advanceDuration = some s') :
    (s'.installed = (Course.followAll (some (some cb)) calls).installed ∧
      ((Course.followAll (some (some cb)) calls).replaced = true → ∀ f,
        (Course.followAll (some (some cb)) calls).installed = some (some f) →
          s'.callback = some f)) ↔
      (Course.followAll (some (some cb)) calls).newClock = false := by
  obtain ⟨clock, htracks, hresume⟩ := idle_eq hcb h
  rw [(resume_installed hresume).1, htracks.restore.1]
  exact ⟨And.left, fun hnew =>
    ⟨hnew, fun hreplaced f hf => callback_of_replaced hcb h hreplaced hf⟩⟩

end

/-- A loop whose tasks have enabled the clock and installed the callback 7. -/
def armed : IdleLoop Nat Nat := ⟨some ⟨.new 0, some 7, true⟩, true⟩

theorem reaches_armed : (idleLoops Nat Nat).Reaches (fun _ _ => True) armed :=
  have hrun : (idleLoops Nat Nat).run (idleLoops Nat Nat).start
    [.poll [.enable 0, .setIdleAdvance 7]] = some armed := rfl
  System.reaches_run hrun

/-- A callback that replaces itself and returns `None`. -/
theorem idle_installs_replaced : ∃ s', armed.idle [.setIdleAdvance 8] none = some s' ∧
    s'.installed = some (some 8) ∧ s'.callback = some 8 := by
  refine ⟨⟨some ⟨.new 0, some 8, true⟩, true⟩, rfl, ?_⟩
  have hidle := (idle_installs_iff armed _ 7 rfl [.setIdleAdvance 8] none rfl).mpr rfl
  exact ⟨hidle.1, hidle.2 rfl 8 rfl⟩

/-- A callback that disables the clock and enables it again is installed in the new clock. -/
theorem exists_idle_reinstalls : (idleLoops Nat Nat).Reaches (fun _ _ => True) armed ∧
    armed.callback = some 7 ∧ ∃ s', armed.idle [.disable, .enable 5] none = some s' ∧
      s'.installed = some (some 7) ∧
      (Course.followAll (some (some 7)) [.disable, .enable 5]).installed = some none :=
  ⟨reaches_armed, rfl, _, rfl, rfl, rfl⟩

/-! ## Runs of the loop -/

section

variable {s s' : IdleLoop ω φ} {l : IdleLabel φ}

/-- The callbacks that are determined by all calls so far, in order. -/
def noteCalls (s : IdleLoop ω φ) (l : IdleLabel φ) (installed : Option (Option φ)) :
    Option (Option φ) :=
  match l with
  | .poll calls => (Course.followAll installed calls).installed
  | .idle calls _ => if s.callback.isSome then (Course.followAll installed calls).installed
      else installed

/-- The calls of a callback do not end with a new clock. -/
def keepsClock (s : IdleLoop ω φ) : IdleLabel φ → Bool
  | .poll _ => true
  | .idle calls _ => s.callback.isNone || !(Course.followAll s.installed calls).newClock

/-- A call of a task, while no callback runs. -/
theorem installed_run {k : Course φ} (h : k.installed = clock.map IdleClock.idleAdvanceFn)
    (hrun : call.run clock = some clock') :
    (k.follow call).installed = clock'.map IdleClock.idleAdvanceFn := by
  cases call with
  | enable now =>
    cases clock with
    | none => cases hrun; simp [Course.follow, h, IdleClock.new]
    | some c => cases hrun; simp [Course.follow, h]
  | disable => cases hrun; rfl
  | setIdleAdvance f | clearIdleAdvance =>
    obtain ⟨c, rfl, rfl⟩ := Option.map_eq_some_iff.mp hrun
    rfl
  | advance duration =>
    obtain ⟨c, rfl, hadvance⟩ := Option.bind_eq_some_iff.mp hrun
    obtain ⟨c', hc', rfl⟩ := Option.map_eq_some_iff.mp hadvance
    obtain ⟨v, rfl⟩ := advanceBy_eq hc'
    exact h
  | advanceTo target =>
    obtain ⟨c, rfl, rfl⟩ := Option.map_eq_some_iff.mp hrun
    exact h

theorem installed_runAll (h : k.installed = clock.map IdleClock.idleAdvanceFn)
    (hrun : ClockCall.runAll calls clock = some clock') :
    (calls.foldl Course.follow k).installed = clock'.map IdleClock.idleAdvanceFn := by
  induction calls generalizing k clock with
  | nil =>
    cases hrun
    exact h
  | cons call calls ih =>
    obtain ⟨clock₁, hcall, hrest⟩ := Option.bind_eq_some_iff.mp hrun
    exact ih (installed_run h hcall) hrest

/-- **The step**: the callback that is installed stays the one that is determined. -/
theorem installed_next (hkeeps : keepsClock s l = true)
    (hs : (idleLoops ω φ).next s l = some s') : s'.installed = noteCalls s l s.installed := by
  cases l with
  | poll calls =>
    obtain ⟨clock, hrun, rfl⟩ := Option.map_eq_some_iff.mp hs
    exact (installed_runAll rfl hrun).symm
  | idle calls advanceDuration =>
    cases hcb : s.callback with
    | none =>
      have hs : s.idle calls advanceDuration = some s' := hs
      simp only [IdleLoop.idle, hcb] at hs
      cases hs
      simp [noteCalls, hcb]
    | some cb =>
      obtain ⟨c, hclock, hfn⟩ := exists_of_callback hcb
      have hinstalled : s.installed = some (some cb) := by
        rw [IdleLoop.installed, hclock, ← hfn]
        rfl
      simp only [keepsClock, hcb, hinstalled, Option.isNone_some, Bool.false_or,
        Bool.not_eq_true'] at hkeeps
      obtain ⟨clock, htracks, hresume⟩ := idle_eq hcb hs
      rw [(resume_installed hresume).1, noteCalls, hcb, if_pos Option.isSome_some, hinstalled]
      exact htracks.restore.1.mpr hkeeps

/-- **Every run** in which no callback leaves a new clock behind: the callback that is
installed is the one that all calls, of the tasks and of the callbacks, determine in order. -/
theorem installed_of_reaches {s : IdleLoop ω φ × Option (Option φ)}
    (h : ((idleLoops ω φ).recording none noteCalls).Reaches
      (fun s l => keepsClock s.1 l = true) s) : s.1.installed = s.2 := by
  refine h.invariant (P := fun s => s.1.installed = s.2) rfl fun s l s' hsame hkeeps hs => ?_
  obtain ⟨s₁, hnext, rfl⟩ := Option.map_eq_some_iff.mp hs
  rw [← hsame]
  exact installed_next hkeeps hnext

end

/-- A task installs the callback 7, which replaces itself by 8. -/
theorem installed_of_reaches_replaced : ∃ s, ((idleLoops Nat Nat).recording none noteCalls).Reaches
    (fun s l => keepsClock s.1 l = true) s ∧ s.2 = some (some 8) ∧ s.1.installed = s.2 := by
  have hrun : (((idleLoops Nat Nat).recording none noteCalls).restrict
      fun s l => keepsClock s.1 l).run (⟨none, true⟩, none)
      [.poll [.enable 0, .setIdleAdvance 7], .idle [.setIdleAdvance 8] none] = some _ := rfl
  have hreaches := System.Reaches.start.run hrun
  exact ⟨_, hreaches, rfl, installed_of_reaches hreaches⟩

end Kimojio.Clock
