import Kimojio.Transition
import Kimojio.Sync.Waiters

/-!
# Kimojio.Sync.EventWaits

An `AsyncEvent` that is changed by `set` and `reset` only, with any number of
`wait` and `wait_reset` futures on it.

Waiters for both values stand in one list. They do not disturb each other,
because every change of the value empties the list: whoever is linked has
registered after the last change, and found the other value.
-/

namespace Kimojio.Sync

/-- An event in use. A future that has been dropped is `none`. -/
structure Waiting where
  event : AsyncEvent
  futures : List (Option WaitFuture)

inductive WaitLabel where
  | set
  | reset
  | wait
  | waitReset
  | poll (future : Nat) (aborted : Bool)
  | drop (future : Nat)
  | cancelWait (waitData : Nat)
  deriving DecidableEq, Repr

namespace Waiting

def next (s : Waiting) : WaitLabel → Option Waiting
  | .set => some { s with event := s.event.set }
  | .reset => some { s with event := s.event.reset }
  | .wait => some { s with futures := s.futures ++ [some (.new true)] }
  | .waitReset => some { s with futures := s.futures ++ [some (.new false)] }
  | .poll i aborted => do
    let w ← (s.futures[i]?).join
    let (event, w, _) := w.poll aborted s.event
    some { event, futures := s.futures.set i (some w) }
  | .drop i => do
    let w ← (s.futures[i]?).join
    some { event := w.drop s.event, futures := s.futures.set i none }
  | .cancelWait d => some { s with event := s.event.cancelWait d }

end Waiting

/-- An event that starts in the state `initial`. -/
def waiting (initial : Bool) : System Waiting WaitLabel where
  start := ⟨.withState initial, []⟩
  next := Waiting.next

/-! ## One poll -/

/-- The waits among the futures: the value that is waited for, and the
`WaitData`. -/
def WaitFuture.awaits (w : WaitFuture) : List (Bool × Nat) :=
  match w.source, w.waitData with
  | some expected, some d => [(expected, d)]
  | _, _ => []

/-- The waits `as` of an event: a linked one waits for the other value. -/
structure Unmet (e : AsyncEvent) (as : List (Bool × Nat)) : Prop where
  queue : Queue e (as.map Prod.snd)
  unmet : ∀ a ∈ as, a.2 ∈ e.waitingTasks → e.state ≠ a.1

namespace Unmet

variable {e : AsyncEvent} {as : List (Bool × Nat)} {expected : Bool} {d : Nat}

theorem perm (h : Unmet e as) (hp : as.Perm as') : Unmet e as' where
  queue := h.queue.perm (hp.map _)
  unmet := fun a ha => h.unmet a (hp.mem_iff.mpr ha)

theorem of_unlinked (h : Queue e (as.map Prod.snd)) (hlinked : e.waitingTasks = []) :
    Unmet e as where
  queue := h
  unmet := by simp [hlinked]

theorem wakeAll (h : Unmet e as) : Unmet e.wakeAll as :=
  of_unlinked h.queue.wakeAll (by simp)

theorem set (h : Unmet e as) : Unmet e.set as :=
  of_unlinked h.queue.withStateField.wakeAll (by simp [AsyncEvent.set])

theorem reset (h : Unmet e as) : Unmet e.reset as :=
  of_unlinked h.queue.withStateField.wakeAll (by simp [AsyncEvent.reset])

theorem cancelWait (h : Unmet e as) : Unmet (e.cancelWait d) as where
  queue := h.queue.cancelWait
  unmet := h.unmet

theorem leave (h : Unmet e (a :: as)) : Unmet e as where
  queue := h.queue.leave
  unmet := fun b hb => h.unmet b (List.mem_cons_of_mem _ hb)

theorem unregister (h : Unmet e ((expected, d) :: as)) : Unmet (e.unregister d) as where
  queue := h.queue.unregister
  unmet := by
    intro a ha hlinked
    rw [AsyncEvent.unregister_state]
    have hmem := (AsyncEvent.mem_unregister h.queue.linkedNodup).mp hlinked
    exact h.unmet a (List.mem_cons_of_mem _ ha) hmem.1

theorem register (h : Unmet e ((expected, d) :: as)) (hne : e.state ≠ expected) :
    Unmet ((e.setWaker d).register d) ((expected, d) :: as) where
  queue := h.queue.register
  unmet := by
    intro a ha hlinked
    rw [AsyncEvent.register_state]
    rcases AsyncEvent.mem_register.mp hlinked with hlinked | heq
    · exact h.unmet a ha hlinked
    · -- the numbers of the waits are distinct, so this is the polled one
      have hnodup := h.queue.nodup
      rcases List.mem_cons.mp ha with rfl | ha
      · exact hne
      · have hmem : d ∈ as.map Prod.snd := heq ▸ List.mem_map_of_mem ha
        exact absurd hmem (List.nodup_cons.mp hnodup).1

theorem registerNew (h : Unmet e as) (hne : e.state ≠ expected) :
    Unmet (e.newWaitData.register e.next) ((expected, e.next) :: as) where
  queue := h.queue.registerNew
  unmet := by
    intro a ha hlinked
    rw [AsyncEvent.register_state]
    rcases List.mem_cons.mp ha with rfl | ha
    · exact hne
    · have hlt : a.2 < e.next := h.queue.lt _ (List.mem_map_of_mem ha)
      have hlinked := (AsyncEvent.mem_register.mp hlinked).resolve_right (by omega)
      exact h.unmet a ha hlinked

theorem update (h : Unmet e as) (hf : ∀ data, data.woken = true → (f data).woken = true) :
    Unmet (e.update d f) as where
  queue := h.queue.update hf
  unmet := h.unmet

/-- A wait that is given up passes a notification on. -/
theorem giveUp {w : WaitFuture} (h : Unmet e (w.awaits ++ as)) :
    Unmet (w.unregisterCanceledWait e) as := by
  obtain ⟨_ | expected, _ | d⟩ := w
  · exact h
  · exact h
  · exact h
  · unfold WaitFuture.unregisterCanceledWait
    dsimp only
    split
    · exact (unregister h).wakeAll
    · exact unregister h

/-- **One poll** keeps the waits of all other futures. -/
theorem poll {w w' : WaitFuture} (h : Unmet e (w.awaits ++ as))
    (hpoll : w.poll aborted e = (e', w', r)) : Unmet e' (w'.awaits ++ as) := by
  unfold WaitFuture.poll at hpoll
  split at hpoll
  · obtain ⟨source, _ | d⟩ := w
    · cases hpoll
      cases source <;> exact h
    · cases hpoll
      have hcleared := (h.update (d := d) (f := fun data => { data with canceled := false })
        fun _ hdata => hdata).giveUp
      cases source <;> exact hcleared
  · split at hpoll
    · cases hpoll
      split
      · exact h.wakeAll
      · exact h
    · split at hpoll
      · cases hpoll
        exact h
      · next expected hsource =>
        obtain ⟨source, waitData⟩ := w
        cases hsource
        split at hpoll
        · cases hpoll
          cases waitData with
          | none => exact h
          | some d => exact h.leave
        · next hne =>
          cases waitData with
          | none =>
            cases hpoll
            exact registerNew h hne
          | some d =>
            cases hpoll
            exact register h hne

end Unmet

/-! ## Every run -/

namespace Waiting

/-- The waits of all futures. -/
def awaits (s : Waiting) : List (Bool × Nat) :=
  s.futures.flatMap fun w => w.toList.flatMap WaitFuture.awaits

def Inv (s : Waiting) : Prop := Unmet s.event s.awaits

variable {s s' : Waiting} {i : Nat} {w : WaitFuture}

/-- One future is replaced, together with the event. -/
theorem Inv.replace (h : s.Inv) (hw : s.futures[i]? = some (some w))
    (hevent : ∀ as, Unmet s.event (w.awaits ++ as) →
      Unmet e (w'.toList.flatMap WaitFuture.awaits ++ as)) : Inv ⟨e, s.futures.set i w'⟩ := by
  obtain ⟨as, hold, hnew⟩ :=
    exists_perm_flatMap_set hw fun w => w.toList.flatMap WaitFuture.awaits
  have hold : Unmet s.event (w.awaits ++ as) := by
    have := Unmet.perm h hold
    simpa using this
  exact (hevent as hold).perm (hnew w').symm

theorem Inv.next (h : s.Inv) (hs : s.next a = some s') : s'.Inv := by
  cases a with
  | set =>
    cases hs
    exact Unmet.set h
  | reset =>
    cases hs
    exact Unmet.reset h
  | wait =>
    cases hs
    have hsame : awaits { s with futures := s.futures ++ [some (.new true)] } = s.awaits := by
      simp [awaits, WaitFuture.new, WaitFuture.awaits]
    exact (congrArg (Unmet s.event) hsame).mpr h
  | waitReset =>
    cases hs
    have hsame : awaits { s with futures := s.futures ++ [some (.new false)] } = s.awaits := by
      simp [awaits, WaitFuture.new, WaitFuture.awaits]
    exact (congrArg (Unmet s.event) hsame).mpr h
  | poll i aborted =>
    obtain ⟨w, hw, hs⟩ := Option.bind_eq_some_iff.mp hs
    cases hs
    refine h.replace (Option.join_eq_some_iff.mp hw) fun as has => ?_
    simpa using has.poll rfl
  | drop i =>
    obtain ⟨w, hw, hs⟩ := Option.bind_eq_some_iff.mp hs
    cases hs
    exact h.replace (Option.join_eq_some_iff.mp hw) fun as has => has.giveUp
  | cancelWait d =>
    cases hs
    exact Unmet.cancelWait h

theorem inv_of_reaches (h : (waiting initial).Reaches (fun _ _ => True) s) : s.Inv := by
  refine h.invariant (P := Inv) ?_ fun _ _ _ hinv _ hs => hinv.next hs
  exact Unmet.of_unlinked (Queue.withState initial) rfl

/-- The future `i` has returned `Pending` as the wait `d` for `expected`, and
has not been resolved or dropped since. -/
def Pending (s : Waiting) (i : Nat) (expected : Bool) (d : Nat) : Prop :=
  s.futures[i]? = some (some ⟨some expected, some d⟩)

theorem Pending.mem_awaits (h : s.Pending i expected d) : (expected, d) ∈ s.awaits := by
  unfold awaits
  rw [List.mem_flatMap]
  exact ⟨_, List.mem_of_getElem? h, by simp [WaitFuture.awaits]⟩

/-- Nobody waits for what has come: a pending wait that has not been woken
since its last poll is linked, and waits for the value that the event does
not have. -/
def NoneStranded (s : Waiting) : Prop :=
  ∀ i expected d, s.Pending i expected d → (s.event.waits d).woken = false →
    d ∈ s.event.waitingTasks ∧ s.event.state ≠ expected

theorem Inv.noneStranded (h : s.Inv) : s.NoneStranded := by
  intro i expected d hpending hwoken
  have hmem := hpending.mem_awaits
  have hlinked : d ∈ s.event.waitingTasks := by
    refine Decidable.byContradiction fun hnot => ?_
    have hwoken' := h.queue.woken d (List.mem_map_of_mem hmem) hnot
    rw [hwoken] at hwoken'
    cases hwoken'
  exact ⟨hlinked, h.unmet _ hmem hlinked⟩

/-- A step leaves a wait linked, unless it wakes it. -/
def Keeps (s s' : Waiting) : Prop :=
  ∀ i expected d, s.Pending i expected d → s'.Pending i expected d →
    d ∈ s.event.waitingTasks → d ∈ s'.event.waitingTasks ∨ (s'.event.waits d).woken = true

end Waiting

/-- **Nobody is stranded**: whatever is done with the event and its waits, a
pending wait that has not been woken is linked and waits for the other value,
and a step that unlinks a pending wait wakes it. -/
theorem waits_unmet (initial : Bool) (s : Waiting)
    (h : (waiting initial).Reaches (fun _ _ => True) s) :
    s.NoneStranded ∧ ∀ a s', s.next a = some s' → s.Keeps s' := by
  have hinv := Waiting.inv_of_reaches h
  refine ⟨hinv.noneStranded, fun a s' hs i expected d _ hpending _ => ?_⟩
  cases hwoken : (s'.event.waits d).woken with
  | true => exact .inr rfl
  | false => exact .inl ((hinv.next hs).noneStranded i expected d hpending hwoken).1

/-- A `wait_reset` and a `wait` on one event: the first is woken by `reset`
and polled by nobody, the second stays linked. -/
theorem waits_unmet_two : ∃ s, (waiting true).Reaches (fun _ _ => True) s ∧
      s.Pending 0 false 0 ∧ (s.event.waits 0).woken = true ∧
      s.Pending 1 true 1 ∧ (s.event.waits 1).woken = false ∧
      s.NoneStranded ∧ ∀ a s', s.next a = some s' → s.Keeps s' := by
  have hrun : (waiting true).run (waiting true).start
      [.waitReset, .poll 0 false, .reset, .wait, .poll 1 false] = some _ := rfl
  have hreach := System.reaches_run hrun
  exact ⟨_, hreach, rfl, rfl, rfl, rfl, waits_unmet true _ hreach⟩

/-- A waiter that is dropped, and one that is aborted, unlinks another waiter,
which is woken for it. -/
theorem exists_unlinked_by_other : (∃ s s', (waiting false).Reaches (fun _ _ => True) s ∧
      s.next (.drop 0) = some s' ∧ s.Pending 1 false 1 ∧ s'.Pending 1 false 1 ∧
      1 ∈ s.event.waitingTasks ∧ 1 ∉ s'.event.waitingTasks) ∧
    ∃ s s', (waiting false).Reaches (fun _ _ => True) s ∧
      s.next (.poll 0 true) = some s' ∧ s.Pending 1 true 1 ∧ s'.Pending 1 true 1 ∧
      1 ∈ s.event.waitingTasks ∧ 1 ∉ s'.event.waitingTasks := by
  constructor
  · have hrun : (waiting false).run (waiting false).start
        [.wait, .poll 0 false, .set, .waitReset, .poll 1 false] = some _ := rfl
    exact ⟨_, _, System.reaches_run hrun, rfl, rfl, rfl, by decide, by decide⟩
  · have hrun : (waiting false).run (waiting false).start
        [.wait, .poll 0 false, .wait, .poll 1 false] = some _ := rfl
    exact ⟨_, _, System.reaches_run hrun, rfl, rfl, rfl, by decide, by decide⟩

end Kimojio.Sync
