import Kimojio.Sync.EventWaits

/-!
# Kimojio.Sync.EventWakes

An `AsyncEvent` that is also changed by `set_wake_n`, which wakes a part of
the waiters only.

A wait that is left out may be polled for another reason, and finds the event
set. It succeeds then, and takes its source out, with which it could have
been unlinked: its entry stays in the list, and is woken in place of a wait
that is pending. So is the entry of a wait that a scope has canceled, until it
is polled. Where no wait succeeds while it is linked, the entries of the list
are pending waits, and those that are not canceled have not been woken
(`setWakeN_wakes`).
-/

namespace Kimojio.Sync

inductive WakeLabel where
  | step (l : WaitLabel)
  | setWakeN (count : Nat)
  deriving DecidableEq, Repr

def Waiting.nextWake (s : Waiting) : WakeLabel → Option Waiting
  | .step l => s.next l
  | .setWakeN count => some { s with event := s.event.setWakeN count }

/-- An event that starts in the state `initial`. -/
def waking (initial : Bool) : System Waiting WakeLabel where
  start := ⟨.withState initial, []⟩
  next := Waiting.nextWake

namespace Waiting

/-- The pending waits: they have been polled, and are neither resolved nor
dropped. -/
def pending (s : Waiting) : List Nat := s.awaits.map Prod.snd

/-- The pending waits that have not been woken since they were polled. -/
def unwoken (s : Waiting) : List Nat := s.pending.filter fun d => !(s.event.waits d).woken

/-- A wait that succeeds, or has succeeded, is not linked when it is polled. -/
def settles (s : Waiting) : WakeLabel → Bool
  | .step (.poll i aborted) =>
    (s.futures[i]?).join.all fun w =>
      (w.source.isSome && (w.poll aborted s.event).2.2 ≠ .ready) ||
        w.waitData.all fun d => d ∉ s.event.waitingTasks
  | _ => true

end Waiting

/-! ## The waits and the list -/

/-- Only a cancellation wakes a wait and leaves it linked. -/
def WaitData.Fresh (data : WaitData) : Prop := data.canceled = false → data.woken = false

/-- The waits `ws` of an event: those in the list have not been woken, unless they are
canceled. -/
structure Tracked (e : AsyncEvent) (ws : List Nat) : Prop extends Queue e ws where
  clean : ∀ d ∈ e.waitingTasks, d ∈ ws
  fresh : ∀ d ∈ e.waitingTasks, (e.waits d).Fresh

namespace Tracked

variable {e : AsyncEvent} {ws : List Nat} {d : Nat}

theorem perm (h : Tracked e ws) (hp : ws.Perm ws') : Tracked e ws' where
  toQueue := h.toQueue.perm hp
  clean := fun d hd => hp.mem_iff.mp (h.clean d hd)
  fresh := h.fresh

theorem of_unlinked (h : Queue e ws) (hlinked : e.waitingTasks = []) : Tracked e ws where
  toQueue := h
  clean := by simp [hlinked]
  fresh := by simp [hlinked]

theorem wakeAll (h : Queue e ws) : Tracked e.wakeAll ws := of_unlinked h.wakeAll (by simp)

/-- `set_wake_n` leaves the waits behind the first `count` as they are. -/
theorem setWakeN (h : Tracked e ws) (count : Nat) : Tracked (e.setWakeN count) ws := by
  obtain ⟨-, -, hlinked, hwoken, hkept⟩ := AsyncEvent.wakeN_spec count { e with state := true }
  refine ⟨h.toQueue.withStateField.wakeN count, fun d hd => ?_, fun d hd => ?_⟩
  · rw [AsyncEvent.setWakeN, hlinked] at hd
    exact h.clean d (List.mem_of_mem_drop hd)
  · rw [AsyncEvent.setWakeN, hlinked] at hd
    have hnot : d ∉ e.waitingTasks.take count := by
      have hnodup := h.linkedNodup
      rw [← List.take_append_drop count e.waitingTasks] at hnodup
      exact fun htake => (List.nodup_append.mp hnodup).2.2 d htake d hd rfl
    intro hcanceled
    rw [AsyncEvent.setWakeN, hkept] at hcanceled
    rw [AsyncEvent.setWakeN, hwoken, h.fresh d (List.mem_of_mem_drop hd) hcanceled]
    simp [hnot]

/-- A canceled wait is woken, and stays where it is. -/
theorem cancelWait (h : Tracked e ws) (d : Nat) : Tracked (e.cancelWait d) ws where
  toQueue := h.toQueue.cancelWait
  clean := h.clean
  fresh := by
    intro i hi
    rw [AsyncEvent.cancelWait, AsyncEvent.wake, AsyncEvent.update_waits, AsyncEvent.update_waits]
    by_cases hid : i = d
    · simp [hid, WaitData.Fresh]
    · simpa [hid] using h.fresh i hi

/-- A wait that succeeds after it was unlinked. -/
theorem leave (h : Tracked e (d :: ws)) (hd : d ∉ e.waitingTasks) : Tracked e ws where
  toQueue := h.toQueue.leave
  clean := fun i hi => (List.mem_cons.mp (h.clean i hi)).resolve_left fun heq => hd (heq ▸ hi)
  fresh := h.fresh

theorem unregister (h : Tracked e (d :: ws)) : Tracked (e.unregister d) ws where
  toQueue := h.toQueue.unregister
  clean := by
    intro i hi
    have hmem := (AsyncEvent.mem_unregister h.linkedNodup).mp hi
    exact (List.mem_cons.mp (h.clean i hmem.1)).resolve_left hmem.2
  fresh := by
    intro i hi
    have hmem := (AsyncEvent.mem_unregister h.linkedNodup).mp hi
    rw [AsyncEvent.unregister_waits]
    exact h.fresh i hmem.1

/-- The poll of a canceled wait takes the mark away with the entry. -/
theorem clear (h : Tracked e ws) (hd : d ∉ e.waitingTasks) :
    Tracked (e.update d fun data => { data with canceled := false }) ws where
  toQueue := h.toQueue.update fun _ hdata => hdata
  clean := h.clean
  fresh := by
    intro i hi
    have hne : i ≠ d := fun hid => hd (hid ▸ hi)
    rw [AsyncEvent.update_waits, if_neg hne]
    exact h.fresh i hi

theorem register (h : Tracked e (d :: ws)) : Tracked ((e.setWaker d).register d) (d :: ws) where
  toQueue := h.toQueue.register
  clean := by
    intro i hi
    rcases AsyncEvent.mem_register.mp hi with hi | rfl
    · exact h.clean i hi
    · exact .head _
  fresh := by
    intro i hi
    rw [AsyncEvent.register_waits, AsyncEvent.setWaker, AsyncEvent.update_waits]
    split
    · exact fun _ => rfl
    · next hne => exact h.fresh i ((AsyncEvent.mem_register.mp hi).resolve_right hne)

theorem registerNew (h : Tracked e ws) :
    Tracked (e.newWaitData.register e.next) (e.next :: ws) where
  toQueue := h.toQueue.registerNew
  clean := by
    intro i hi
    rcases AsyncEvent.mem_register.mp hi with hi | rfl
    · exact .tail _ (h.clean i hi)
    · exact .head _
  fresh := by
    intro i hi
    rw [AsyncEvent.register_waits, AsyncEvent.newWaitData]
    dsimp only
    split
    · exact fun _ => rfl
    · next hne => exact h.fresh i ((AsyncEvent.mem_register.mp hi).resolve_right hne)

/-- A wait that is given up passes a notification on. -/
theorem giveUp {w : WaitFuture} (h : Tracked e (w.awaits.map Prod.snd ++ ws)) :
    Tracked (w.unregisterCanceledWait e) ws := by
  obtain ⟨_ | expected, _ | d⟩ := w
  · exact h
  · exact h
  · exact h
  · unfold WaitFuture.unregisterCanceledWait
    dsimp only
    split
    · exact wakeAll (unregister h).toQueue
    · exact unregister h

/-- A canceled wait is given up. -/
theorem giveUpCanceled (h : Tracked e ((WaitFuture.awaits ⟨source, some d⟩).map Prod.snd ++ ws))
    (hsettles : source = none → d ∉ e.waitingTasks) :
    Tracked (WaitFuture.unregisterCanceledWait ⟨source, some d⟩
      (e.update d fun data => { data with canceled := false })) ws := by
  cases source with
  | none => exact clear h (hsettles rfl)
  | some expected =>
    have hcleared := (unregister h).clear (d := d) fun hd =>
      ((AsyncEvent.mem_unregister h.linkedNodup).mp hd).2 rfl
    unfold WaitFuture.unregisterCanceledWait
    dsimp only
    rw [AsyncEvent.unregister_update]
    split
    · exact wakeAll hcleared.toQueue
    · exact hcleared

/-- **One poll**, of a wait that is not linked if it succeeds or has succeeded. -/
theorem poll {w w' : WaitFuture} (h : Tracked e (w.awaits.map Prod.snd ++ ws))
    (hpoll : w.poll aborted e = (e', w', r))
    (hsettles : w.source = none ∨ r = .ready → ∀ d, w.waitData = some d → d ∉ e.waitingTasks) :
    Tracked e' (w'.awaits.map Prod.snd ++ ws) := by
  unfold WaitFuture.poll at hpoll
  split at hpoll
  · obtain ⟨source, _ | d⟩ := w
    · cases hpoll
      cases source <;> exact h
    · cases hpoll
      have hcleared := giveUpCanceled h fun hnone => hsettles (.inl hnone) d rfl
      cases source <;> exact hcleared
  · split at hpoll
    · cases hpoll
      split
      · exact wakeAll h.toQueue
      · exact h
    · split at hpoll
      · cases hpoll
        exact h
      · next expected hsource =>
        obtain ⟨source, waitData⟩ := w
        cases hsource
        split at hpoll
        · cases hpoll
          cases waitData with
          | none => exact h
          | some d => exact h.leave (hsettles (.inr rfl) d rfl)
        · cases waitData with
          | none =>
            cases hpoll
            exact registerNew h
          | some d =>
            cases hpoll
            exact register h

/-- Where no wait in the list is canceled, it holds the waits that have not been woken. -/
theorem mem_waitingTasks_iff (h : Tracked e ws)
    (hcanceled : ∀ d ∈ e.waitingTasks, (e.waits d).canceled = false) :
    d ∈ e.waitingTasks ↔ d ∈ ws ∧ (e.waits d).woken = false := by
  refine ⟨fun hd => ⟨h.clean d hd, h.fresh d hd (hcanceled d hd)⟩, fun ⟨hd, hfalse⟩ => ?_⟩
  refine Decidable.byContradiction fun hnot => ?_
  have hwoken := h.woken d hd hnot
  rw [hfalse] at hwoken
  cases hwoken

/-- **The waits that `set_wake_n` wakes** are as many as it is asked for, or
all. -/
theorem length_woken (h : Tracked e ws)
    (hcanceled : ∀ d ∈ e.waitingTasks, (e.waits d).canceled = false) (count : Nat) :
    ((ws.filter fun d => !(e.waits d).woken).filter
      fun d => ((e.setWakeN count).waits d).woken).length =
      min count (ws.filter fun d => !(e.waits d).woken).length := by
  have hwoken := (AsyncEvent.wakeN_spec count { e with state := true }).2.2.2.1
  have hall : (ws.filter fun d => !(e.waits d).woken).Perm e.waitingTasks := by
    refine (List.perm_ext_iff_of_nodup (h.nodup.filter _) h.linkedNodup).mpr fun d => ?_
    rw [List.mem_filter, Bool.not_eq_true', h.mem_waitingTasks_iff hcanceled]
  have htaken : (e.waitingTasks.filter
      fun d => ((e.setWakeN count).waits d).woken).Perm (e.waitingTasks.take count) := by
    refine (List.perm_ext_iff_of_nodup (h.linkedNodup.filter _)
      (h.linkedNodup.sublist (List.take_sublist _ _))).mpr fun d => ?_
    rw [List.mem_filter, AsyncEvent.setWakeN, hwoken]
    constructor
    · rintro ⟨hd, hw⟩
      simpa [h.fresh d hd (hcanceled d hd)] using hw
    · intro hd
      exact ⟨List.mem_of_mem_take hd, by simp [hd]⟩
  rw [(hall.filter _).length_eq, htaken.length_eq, List.length_take, hall.length_eq]

end Tracked

/-! ## Every run -/

namespace Waiting

def Wakes (s : Waiting) : Prop := Tracked s.event s.pending

variable {s s' : Waiting} {i : Nat} {w : WaitFuture}

/-- One future is replaced, together with the event. -/
theorem Wakes.replace (h : s.Wakes) (hw : s.futures[i]? = some (some w))
    (hevent : ∀ ws, Tracked s.event (w.awaits.map Prod.snd ++ ws) →
      Tracked e ((w'.toList.flatMap WaitFuture.awaits).map Prod.snd ++ ws)) :
    Wakes ⟨e, s.futures.set i w'⟩ := by
  obtain ⟨as, hold, hnew⟩ :=
    exists_perm_flatMap_set hw fun w => w.toList.flatMap WaitFuture.awaits
  have hold : Tracked s.event (w.awaits.map Prod.snd ++ as.map Prod.snd) := by
    have := Tracked.perm h (hold.map Prod.snd)
    simpa using this
  have hreplaced := hevent _ hold
  rw [← List.map_append] at hreplaced
  exact hreplaced.perm ((hnew w').symm.map Prod.snd)

theorem Wakes.newFuture (h : s.Wakes) (expected : Bool) :
    Wakes { s with futures := s.futures ++ [some (.new expected)] } := by
  have hsame : pending { s with futures := s.futures ++ [some (.new expected)] } = s.pending := by
    simp [pending, awaits, WaitFuture.new, WaitFuture.awaits]
  exact (congrArg (Tracked s.event) hsame).mpr h

theorem Wakes.next (h : s.Wakes) (hsettles : s.settles l = true) (hs : s.nextWake l = some s') :
    s'.Wakes := by
  cases l with
  | setWakeN count =>
    cases hs
    exact Tracked.setWakeN h count
  | step l =>
    cases l with
    | set | reset =>
      cases hs
      exact Tracked.wakeAll h.toQueue.withStateField
    | wait =>
      cases hs
      exact h.newFuture true
    | waitReset =>
      cases hs
      exact h.newFuture false
    | poll i aborted =>
      obtain ⟨w, hw, hs⟩ := Option.bind_eq_some_iff.mp hs
      cases hs
      have hready (hr : w.source = none ∨ (w.poll aborted s.event).2.2 = .ready) (d : Nat)
          (hd : w.waitData = some d) : d ∉ s.event.waitingTasks := by
        have hor : w.source.isSome = true ∧ (w.poll aborted s.event).2.2 ≠ .ready ∨
            d ∉ s.event.waitingTasks := by
          simpa [settles, hw, hd] using hsettles
        refine hor.resolve_left fun ⟨hsome, hne⟩ => ?_
        rcases hr with hnone | hr
        · simp [hnone] at hsome
        · exact hne hr
      refine h.replace (Option.join_eq_some_iff.mp hw) fun ws hws => ?_
      simpa using hws.poll rfl hready
    | drop i =>
      obtain ⟨w, hw, hs⟩ := Option.bind_eq_some_iff.mp hs
      cases hs
      exact h.replace (Option.join_eq_some_iff.mp hw) fun ws hws => hws.giveUp
    | cancelWait d =>
      cases hs
      exact Tracked.cancelWait h d

end Waiting

/-- **`set_wake_n` wakes as many as it says.** As long as no wait succeeds
while it is linked, every entry of the list belongs to a pending wait. If none
of these is canceled, `set_wake_n(count)` wakes `count` of the pending waits
that have not been woken since they were polled, or all of them. -/
theorem setWakeN_wakes (initial : Bool) (s : Waiting)
    (h : (waking initial).Reaches (fun s l => s.settles l = true) s) :
    (∀ d ∈ s.event.waitingTasks, d ∈ s.pending) ∧
      ((∀ d ∈ s.event.waitingTasks, (s.event.waits d).canceled = false) →
        ∀ count, (s.unwoken.filter fun d => ((s.event.setWakeN count).waits d).woken).length =
          min count s.unwoken.length) := by
  have hwakes := h.invariant (P := Waiting.Wakes)
    (Tracked.of_unlinked (Queue.withState initial) rfl)
    fun _ _ _ hinv hsettles hs => hinv.next hsettles hs
  exact ⟨hwakes.clean, hwakes.length_woken⟩

/-- Three waits, of which one is canceled and polled, and a `set_wake_n` for one of the
others. -/
theorem setWakeN_wakes_two :
    ∃ s, (waking false).Reaches (fun s l => s.settles l = true) s ∧ s.unwoken = [1, 2] ∧
      (s.unwoken.filter fun d => ((s.event.setWakeN 1).waits d).woken).length = 1 := by
  have hrun : (((waking false).restrict Waiting.settles).run (waking false).start
      [.step .wait, .step .wait, .step .wait, .step (.poll 0 false), .step (.poll 1 false),
        .step (.poll 2 false), .step (.cancelWait 0), .step (.poll 0 false)]).any
        (fun s => s.unwoken = [1, 2] ∧
          ∀ d ∈ s.event.waitingTasks, (s.event.waits d).canceled = false) = true := by
    decide +kernel
  obtain ⟨s, hreach, hs⟩ := System.exists_restrict_run hrun
  obtain ⟨hunwoken, hcanceled⟩ := of_decide_eq_true hs
  refine ⟨s, hreach, hunwoken, ?_⟩
  rw [(setWakeN_wakes false s hreach).2 hcanceled 1, hunwoken]
  rfl

/-- A wait that was left out by `set_wake_n` is polled for another reason, and
succeeds; its entry stays linked, and is woken in place of the pending wait
behind it. -/
theorem exists_stale_entry :
    ∃ s, (waking false).Reaches (fun _ _ => True) s ∧ s.event.waitingTasks = [1, 2] ∧
      s.pending = [0, 2] ∧ s.unwoken = [2] ∧
      (s.unwoken.filter fun d => ((s.event.setWakeN 1).waits d).woken).length = 0 := by
  have hrun : ((waking false).run (waking false).start
      [.step .wait, .step .wait, .step (.poll 0 false), .step (.poll 1 false), .setWakeN 1,
        .step (.poll 1 false), .step .waitReset, .step (.poll 2 false)]).any
        (fun s => s.event.waitingTasks = [1, 2] ∧ s.pending = [0, 2] ∧ s.unwoken = [2] ∧
          (s.unwoken.filter fun d => ((s.event.setWakeN 1).waits d).woken).length = 0) = true := by
    decide +kernel
  obtain ⟨s, hreach, hs⟩ := System.exists_run hrun
  exact ⟨s, hreach, of_decide_eq_true hs⟩

end Kimojio.Sync
