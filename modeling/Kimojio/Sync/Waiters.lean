import Kimojio.Handoff
import Kimojio.Table
import Kimojio.Sync.AsyncEvent

/-!
# Kimojio.Sync.Waiters

The waiters of an event that hands out tokens: a lock has one token, a
semaphore several.

The waiters are given by the numbers of the `WaitData` of the pending
futures. `Queue` is what holds of the waiters of any event. `Tokens` says
in addition that the event is set as long as there are tokens, and that the
tokens are handed to the waiters; it has one lemma for each operation of the
event.
-/

namespace Kimojio.Sync

/-- The waiters `ws` of an event: a waiter is linked or has been woken. -/
structure Queue (e : AsyncEvent) (ws : List Nat) : Prop where
  linkedNodup : e.waitingTasks.Nodup
  nodup : ws.Nodup
  linkedLt : ∀ d ∈ e.waitingTasks, d < e.next
  lt : ∀ d ∈ ws, d < e.next
  woken : ∀ d ∈ ws, d ∉ e.waitingTasks → (e.waits d).woken = true

/-- The waiters of an event that hands out `k` tokens. While there are none,
every linked entry belongs to a waiter. -/
structure Tokens (e : AsyncEvent) (ws : List Nat) (k : Nat) : Prop extends Queue e ws where
  set_iff : e.state = true ↔ 0 < k
  clean : k = 0 → ∀ d ∈ e.waitingTasks, d ∈ ws
  handoff : Handoff e.waitingTasks ws k

namespace Queue

variable {e : AsyncEvent} {ws : List Nat} {d : Nat}

theorem withState (state : Bool) : Queue (.withState state) [] where
  linkedNodup := List.nodup_nil
  nodup := List.nodup_nil
  linkedLt := by simp [AsyncEvent.withState]
  lt := by simp
  woken := by simp

theorem perm (h : Queue e ws) (hp : ws.Perm ws') : Queue e ws' where
  linkedNodup := h.linkedNodup
  nodup := hp.nodup_iff.mp h.nodup
  linkedLt := h.linkedLt
  lt := fun d hd => h.lt d (hp.mem_iff.mpr hd)
  woken := fun d hd => h.woken d (hp.mem_iff.mpr hd)

/-- A waiter that succeeds is forgotten; its entry may stay linked. -/
theorem leave (h : Queue e (d :: ws)) : Queue e ws where
  linkedNodup := h.linkedNodup
  nodup := (List.nodup_cons.mp h.nodup).2
  linkedLt := h.linkedLt
  lt := fun i hi => h.lt i (List.mem_cons_of_mem _ hi)
  woken := fun i hi => h.woken i (List.mem_cons_of_mem _ hi)

theorem withStateField (h : Queue e ws) : Queue { e with state := state } ws :=
  ⟨h.linkedNodup, h.nodup, h.linkedLt, h.lt, h.woken⟩

theorem wakeN (count : Nat) (h : Queue e ws) : Queue (AsyncEvent.wakeN count e) ws := by
  obtain ⟨-, hnext, hlinked, hwoken, -⟩ := AsyncEvent.wakeN_spec count e
  constructor
  · rw [hlinked]
    exact h.linkedNodup.sublist (List.drop_sublist _ _)
  · exact h.nodup
  · intro i hi
    rw [hnext]
    rw [hlinked] at hi
    exact h.linkedLt i (List.mem_of_mem_drop hi)
  · rw [hnext]
    exact h.lt
  · intro i hi hnot
    rw [hwoken]
    rw [hlinked] at hnot
    by_cases hmem : i ∈ e.waitingTasks
    · rw [← List.take_append_drop count e.waitingTasks, List.mem_append] at hmem
      simp [hmem.resolve_right hnot]
    · simp [h.woken i hi hmem]

theorem wakeAll (h : Queue e ws) : Queue e.wakeAll ws := h.wakeN _

theorem update (h : Queue e ws) (hf : ∀ data, data.woken = true → (f data).woken = true) :
    Queue (e.update d f) ws where
  linkedNodup := h.linkedNodup
  nodup := h.nodup
  linkedLt := h.linkedLt
  lt := h.lt
  woken := by
    intro i hi hnot
    rw [AsyncEvent.update_waits]
    have hold := h.woken i hi hnot
    split
    · exact hf _ hold
    · exact hold

theorem cancelWait (h : Queue e ws) : Queue (e.cancelWait d) ws := by
  unfold AsyncEvent.cancelWait AsyncEvent.wake
  have hcanceled := h.update (d := d) (f := fun data => { data with canceled := true })
    fun _ hdata => hdata
  exact hcanceled.update fun _ _ => rfl

theorem unregister (h : Queue e (d :: ws)) : Queue (e.unregister d) ws := by
  unfold AsyncEvent.unregister
  split
  · next hd =>
    constructor
    · exact h.linkedNodup.erase d
    · exact h.leave.nodup
    · exact fun i hi => h.linkedLt i (List.mem_of_mem_erase hi)
    · exact h.leave.lt
    · intro i hi hnot
      have hne : i ≠ d := fun heq => (List.nodup_cons.mp h.nodup).1 (heq ▸ hi)
      refine h.leave.woken i hi fun hmem => hnot ?_
      exact (List.mem_erase_of_ne hne).mpr hmem
  · exact h.leave

/-- A waiter that is polled again is linked again, with the new waker. -/
theorem register (h : Queue e (d :: ws)) : Queue ((e.setWaker d).register d) (d :: ws) := by
  have hlinked : (e.setWaker d).waitingTasks.Nodup := h.linkedNodup
  constructor
  · exact AsyncEvent.register_nodup hlinked d
  · exact h.nodup
  · intro i hi
    rw [AsyncEvent.register_next]
    rcases AsyncEvent.mem_register.mp hi with hi | rfl
    · exact h.linkedLt i hi
    · exact h.lt i (List.mem_cons_self ..)
  · exact fun i hi => (AsyncEvent.register_next ..).symm ▸ h.lt i hi
  · intro i hi hnot
    rw [AsyncEvent.mem_register, not_or] at hnot
    rw [AsyncEvent.register_waits, AsyncEvent.setWaker, AsyncEvent.update_waits, if_neg hnot.2]
    exact h.woken i hi hnot.1

/-- A future that is polled for the first time becomes a waiter. -/
theorem registerNew (h : Queue e ws) : Queue (e.newWaitData.register e.next) (e.next :: ws) := by
  have hfresh : e.next ∉ ws := fun hmem => Nat.lt_irrefl _ (h.lt _ hmem)
  have hlinked : e.newWaitData.waitingTasks.Nodup := h.linkedNodup
  constructor
  · exact AsyncEvent.register_nodup hlinked e.next
  · exact List.nodup_cons.mpr ⟨hfresh, h.nodup⟩
  · intro i hi
    rw [AsyncEvent.register_next]
    rcases AsyncEvent.mem_register.mp hi with hi | rfl
    · exact Nat.lt_succ_of_lt (h.linkedLt i hi)
    · exact Nat.lt_succ_self _
  · intro i hi
    rw [AsyncEvent.register_next]
    rcases List.mem_cons.mp hi with rfl | hi
    · exact Nat.lt_succ_self _
    · exact Nat.lt_succ_of_lt (h.lt i hi)
  · intro i hi hnot
    rw [AsyncEvent.mem_register, not_or] at hnot
    have hi : i ∈ ws := (List.mem_cons.mp hi).resolve_left hnot.2
    rw [AsyncEvent.register_waits, AsyncEvent.newWaitData]
    dsimp only
    rw [if_neg hnot.2]
    exact h.woken i hi hnot.1

end Queue

namespace Tokens

variable {e : AsyncEvent} {ws : List Nat} {d k : Nat}

theorem perm (h : Tokens e ws k) (hp : ws.Perm ws') : Tokens e ws' k where
  toQueue := h.toQueue.perm hp
  set_iff := h.set_iff
  clean := fun hk i hi => hp.mem_iff.mp (h.clean hk i hi)
  handoff := h.handoff.perm hp

/-- Nobody is linked: the tokens are free to be taken. -/
theorem of_unlinked (h : Queue e ws) (hset : e.state = true ↔ 0 < k)
    (hlinked : e.waitingTasks = []) : Tokens e ws k where
  toQueue := h
  set_iff := hset
  clean := by simp [hlinked]
  handoff := hlinked ▸ Handoff.of_empty

/-- Without tokens only the waiters may be linked. -/
theorem of_clean (h : Queue e ws) (hset : e.state = false)
    (hclean : ∀ i ∈ e.waitingTasks, i ∈ ws) : Tokens e ws 0 where
  toQueue := h
  set_iff := by simp [hset]
  clean := fun _ => hclean
  handoff := Handoff.of_clean hclean

theorem withState (k : Nat) : Tokens (.withState (decide (0 < k))) [] k :=
  of_unlinked (Queue.withState _) (by simp [AsyncEvent.withState]) rfl

theorem set (h : Queue e ws) (hk : 0 < k) : Tokens e.set ws k :=
  of_unlinked h.withStateField.wakeAll (by simp [AsyncEvent.set, hk]) (by simp [AsyncEvent.set])

theorem reset (h : Queue e ws) : Tokens e.reset ws 0 :=
  of_unlinked h.withStateField.wakeAll (by simp [AsyncEvent.reset]) (by simp [AsyncEvent.reset])

theorem cancelWait (h : Tokens e ws k) : Tokens (e.cancelWait d) ws k where
  toQueue := h.toQueue.cancelWait
  set_iff := h.set_iff
  clean := h.clean
  handoff := h.handoff

/-- A released token is handed to the first waiter. -/
theorem setWakeOne (h : Tokens e ws k) : Tokens e.setWakeOne ws (k + 1) := by
  have hqueue : Queue e.setWakeOne ws := h.toQueue.withStateField.wakeN 1
  obtain ⟨hstate, -, hlinked, -⟩ := AsyncEvent.wakeN_spec 1 { e with state := true }
  refine ⟨hqueue, ?_, by simp, ?_⟩
  · simp [AsyncEvent.setWakeOne, AsyncEvent.setWakeN, hstate]
  · rw [AsyncEvent.setWakeOne, AsyncEvent.setWakeN, hlinked]
    have hnodup := h.linkedNodup
    have hold := h.handoff
    cases hl : e.waitingTasks with
    | nil => exact Handoff.of_empty
    | cons x rest =>
      rw [hl] at hnodup hold
      exact hold.pop hnodup h.nodup

theorem take (h : Tokens e ws (k + 2)) : Tokens e ws (k + 1) where
  toQueue := h.toQueue
  set_iff := by simp [h.set_iff]
  clean := by simp
  handoff := h.handoff.mono (by omega)

/-- A waiter takes a token, linked or not, and others are left. -/
theorem leave (h : Tokens e (d :: ws) (k + 2)) : Tokens e ws (k + 1) where
  toQueue := h.toQueue.leave
  set_iff := by simp [h.set_iff]
  clean := by simp
  handoff := h.handoff.leave h.linkedNodup h.nodup

/-- **Nobody is forgotten**: while a waiter is linked, there are as many
woken waiters as there are tokens. -/
theorem le_woken (h : Tokens e ws k) (hd : d ∈ ws) (hlinked : d ∈ e.waitingTasks) :
    k ≤ ws.countP fun i => (e.waits i).woken := by
  have hhandoff := h.handoff ⟨d, hd, hlinked⟩
  have hcalled : called e.waitingTasks ws ≤ ws.countP fun i => (e.waits i).woken :=
    List.countP_mono_left fun i hi hnot => h.woken i hi (of_decide_eq_true hnot)
  omega

end Tokens

/-- One of the waiters stands in the wait list of the event. -/
def Linked (e : AsyncEvent) (ws : List Nat) : Prop := ∃ d ∈ ws, d ∈ e.waitingTasks

/-- One of the waiters has been woken and not polled since. -/
def Woken (e : AsyncEvent) (ws : List Nat) : Prop := ∃ d ∈ ws, (e.waits d).woken = true

/-- While there is a token and one of several futures is linked and not woken,
another one is woken. -/
theorem Tokens.exists_woken {k i : Nat} {futures : List φ}
    (h : Tokens e (futures.flatMap waiters) (k + 1)) (hf : futures[i]? = some f)
    (hlinked : Linked e (waiters f)) (hwoken : ¬ Woken e (waiters f)) :
    ∃ j g, j ≠ i ∧ futures[j]? = some g ∧ Woken e (waiters g) := by
  obtain ⟨d, hd, hlinked⟩ := hlinked
  have hcount := h.le_woken (List.mem_flatMap.mpr ⟨f, List.mem_of_getElem? hf, hd⟩) hlinked
  obtain ⟨d', hd', hwoken'⟩ := List.countP_pos_iff.mp (Nat.lt_of_succ_le (Nat.le_trans
    (Nat.succ_le_succ (Nat.zero_le k)) hcount))
  obtain ⟨g, hg, hd'⟩ := List.mem_flatMap.mp hd'
  obtain ⟨j, hj⟩ := List.mem_iff_getElem?.mp hg
  refine ⟨j, g, ?_, hj, d', hd', hwoken'⟩
  rintro rfl
  obtain rfl : f = g := by simpa [hf] using hj
  exact hwoken ⟨d', hd', hwoken'⟩

/-! ## Waiting in an async function -/

/-- A poll that returns at all returns a value with the property `P`. -/
def Returns (P : α → Prop) (poll : Option α) : Prop := ∀ r, poll = some r → P r

theorem Returns.none : Returns P none := by
  rintro r ⟨⟩

theorem Returns.some (h : P r) : Returns P (some r) := by
  rintro _ ⟨⟩
  exact h

/-- The waiter that a `WaitFuture` is, if it has been polled. -/
def WaitFuture.waiters (w : WaitFuture) : List Nat := w.waitData.toList

@[simp] theorem WaitFuture.waiters_none (source : Option Bool) :
    WaitFuture.waiters ⟨source, none⟩ = [] := rfl

@[simp] theorem WaitFuture.waiters_some (source : Option Bool) (d : Nat) :
    WaitFuture.waiters ⟨source, some d⟩ = [d] := rfl

@[simp] theorem WaitFuture.drop_unpolled (source : Option Bool) (e : AsyncEvent) :
    WaitFuture.drop ⟨source, none⟩ e = e := rfl

/-- A wait that has succeeded is not unregistered when it is dropped. -/
@[simp] theorem WaitFuture.drop_succeeded (waitData : Option Nat) (e : AsyncEvent) :
    WaitFuture.drop ⟨none, waitData⟩ e = e := by
  cases waitData <;> rfl

/-- What is left of an event when the waiter `w` gives up: a notification
that was on its way to it is passed on to everybody else. -/
structure GivenUp (e : AsyncEvent) (w ws : List Nat) (e' : AsyncEvent) : Prop where
  queue : Queue e' ws
  state : e'.state = e.state
  passed : e.state = true → e'.waitingTasks = []
  linked : ∀ i ∈ e'.waitingTasks, i ∈ e.waitingTasks ∧ i ∉ w

/-- An event in which the waiter `w` is now suspended as `d`. -/
structure Suspended (e : AsyncEvent) (w ws : List Nat) (e' : AsyncEvent) (d : Nat) : Prop where
  queue : Queue e' (d :: ws)
  unset : e.state = false
  state : e'.state = false
  same : ∀ i ∈ w, i = d
  linked : ∀ i ∈ e'.waitingTasks, i ∈ e.waitingTasks ∨ i = d

section

variable {e e' : AsyncEvent} {w ws : List Nat} {d k : Nat}

theorem GivenUp.tokens (h : GivenUp e w ws e') (hold : Tokens e (w ++ ws) k) : Tokens e' ws k := by
  cases hset : e.state with
  | true =>
    have hiff : e'.state = true ↔ 0 < k := by rw [h.state, hold.set_iff]
    exact Tokens.of_unlinked h.queue hiff (h.passed hset)
  | false =>
    obtain rfl : k = 0 := by
      have := hold.set_iff
      simp only [hset, Bool.false_eq_true, false_iff] at this
      omega
    refine Tokens.of_clean h.queue (h.state.trans hset) fun i hi => ?_
    obtain ⟨hmem, hnot⟩ := h.linked i hi
    exact (List.mem_append.mp (hold.clean rfl i hmem)).resolve_left hnot

theorem Suspended.tokens (h : Suspended e w ws e' d) (hold : Tokens e (w ++ ws) k) :
    k = 0 ∧ Tokens e' (d :: ws) 0 := by
  have hk : k = 0 := by
    have := hold.set_iff
    simp only [h.unset, Bool.false_eq_true, false_iff] at this
    omega
  refine ⟨hk, Tokens.of_clean h.queue h.state fun i hi => ?_⟩
  rcases h.linked i hi with hmem | rfl
  · rcases List.mem_append.mp (hold.clean hk i hmem) with hw | hws
    · exact h.same i hw ▸ List.mem_cons_self ..
    · exact List.mem_cons_of_mem _ hws
  · exact List.mem_cons_self ..

theorem Queue.giveUp (h : Queue e (d :: ws)) :
    GivenUp e [d] ws ((⟨some true, some d⟩ : WaitFuture).unregisterCanceledWait e) := by
  have hqueue := h.unregister
  have hstate : (e.unregister d).state = e.state := AsyncEvent.unregister_state ..
  unfold WaitFuture.unregisterCanceledWait
  dsimp only
  split
  · exact ⟨hqueue.wakeAll, by simp, by simp, by simp⟩
  · next hset =>
    rw [hstate] at hset
    refine ⟨hqueue, hstate, fun h => absurd h hset, fun i hi => ?_⟩
    simpa using (AsyncEvent.mem_unregister h.linkedNodup).mp hi

theorem Queue.suspend (h : Queue e (d :: ws)) (hset : e.state = false) :
    Suspended e [d] ws ((e.setWaker d).register d) d where
  queue := h.register
  unset := hset
  state := by simpa using hset
  same := by simp
  linked := fun _ hi => (AsyncEvent.mem_register (e := e.setWaker d)).mp hi

theorem Queue.suspendNew (h : Queue e ws) (hset : e.state = false) :
    Suspended e [] ws (e.newWaitData.register e.next) e.next where
  queue := h.registerNew
  unset := hset
  state := by simpa using hset
  same := by simp
  linked := fun _ hi => (AsyncEvent.mem_register (e := e.newWaitData)).mp hi

end

theorem Queue.leaveWait {w : WaitFuture} (h : Queue e (w.waiters ++ ws)) : Queue e ws := by
  obtain ⟨source, waitData⟩ := w
  cases waitData with
  | none => exact h
  | some d => exact h.leave

/-- A future takes a token after its wait, and others are left. -/
theorem Tokens.leaveWait {w : WaitFuture} (h : Tokens e (w.waiters ++ ws) (k + 2)) :
    Tokens e ws (k + 1) := by
  obtain ⟨source, waitData⟩ := w
  cases waitData with
  | none => exact h.take
  | some d => exact h.leave

theorem Tokens.drop {w : WaitFuture} (hsource : w.source = some true)
    (h : Tokens e (w.waiters ++ ws) k) : Tokens (w.drop e) ws k := by
  obtain ⟨source, waitData⟩ := w
  cases hsource
  cases waitData with
  | none => exact h
  | some d => exact h.toQueue.giveUp.tokens h

/-- The waiter that an async function is, if it is suspended. -/
def waitersOf : Option WaitFuture → List Nat
  | some w => w.waiters
  | none => []

theorem length_waitersOf (wait : Option WaitFuture) : (waitersOf wait).length ≤ 1 := by
  match wait with
  | none => simp [waitersOf]
  | some ⟨source, none⟩ => simp [waitersOf]
  | some ⟨source, some d⟩ => simp [waitersOf]

/-- A suspended function is a waiter, and waits for its event to be set. -/
def AwaitsSet (wait : Option WaitFuture) : Prop :=
  ∀ w, wait = some w → ∃ d, w = ⟨some true, some d⟩

theorem AwaitsSet.none : AwaitsSet none := by
  rintro w ⟨⟩

theorem AwaitsSet.some : AwaitsSet (some ⟨some true, some d⟩) := by
  rintro w ⟨⟩
  exact ⟨d, rfl⟩

theorem AwaitsSet.source (h : AwaitsSet (Option.some w)) : w.source = Option.some true := by
  obtain ⟨d, rfl⟩ := h w rfl
  rfl

theorem AwaitsSet.giveUp (h : AwaitsSet (Option.some w)) (hqueue : Queue e (w.waiters ++ ws)) :
    GivenUp e w.waiters ws (w.drop e) := by
  obtain ⟨d, rfl⟩ := h w rfl
  exact hqueue.giveUp

theorem Tokens.dropSuspended (hwait : AwaitsSet wait) (h : Tokens e (waitersOf wait ++ ws) k) :
    Tokens (WaitFuture.dropSuspended e wait) ws k := by
  cases wait with
  | none => exact h
  | some w => exact Tokens.drop hwait.source h

/-- A wait that panics wakes everybody before it is dropped. -/
theorem Queue.abort {w : WaitFuture} (hsource : w.source = some true)
    (h : Queue e (w.waiters ++ ws)) : GivenUp e w.waiters ws (w.drop e.wakeAll) := by
  obtain ⟨source, waitData⟩ := w
  cases hsource
  cases waitData with
  | none => exact ⟨h.wakeAll, by simp, by simp, by simp⟩
  | some d =>
    have hgive := h.wakeAll.giveUp
    refine ⟨hgive.queue, hgive.state.trans (AsyncEvent.wakeAll_state e), ?_, ?_⟩
    · exact fun hset => hgive.passed ((AsyncEvent.wakeAll_state e).trans hset)
    · intro i hi
      have := (hgive.linked i hi).1
      simp at this

/-- A property that holds whichever way `event.wait().await?` goes on. -/
theorem await_any {P : β → Prop} (hsuspend : ∀ e w, P (suspend e w)) (hready : ∀ e, P (ready e))
    (hcanceled : ∀ e, P (canceled e)) (hpanicked : ∀ e, P (panicked e)) :
    P (await aborted e w suspend ready canceled panicked) := by
  unfold await
  split
  · exact hsuspend _ _
  · exact hready _
  · exact hcanceled _
  · exact hpanicked _

/-- The ways on from `event.wait().await?`. A wait that succeeds leaves the
event as it is, and may leave its entry linked. -/
theorem await_rule {P : β → Prop} (hsource : w.source = some true) (h : Queue e (w.waiters ++ ws))
    (hsuspend : ∀ e' d, Suspended e w.waiters ws e' d → P (suspend e' ⟨some true, some d⟩))
    (hready : e.state = true → P (ready e))
    (hcanceled : ∀ e', GivenUp e w.waiters ws e' → P (canceled e'))
    (hpanicked : ∀ e', GivenUp e w.waiters ws e' → P (panicked e')) :
    P (await aborted e w suspend ready canceled panicked) := by
  obtain ⟨source, waitData⟩ := w
  cases hsource
  unfold await WaitFuture.poll
  by_cases hcancel : waitData.any (fun d => (e.waits d).canceled) = true
  · rw [if_pos hcancel]
    cases waitData with
    | none => cases hcancel
    | some d =>
      have hgive := (h.update (d := d) (f := fun data => { data with canceled := false })
        fun _ hdata => hdata).giveUp
      exact hcanceled _ ⟨hgive.queue, hgive.state, hgive.passed, hgive.linked⟩
  · rw [if_neg hcancel]
    cases aborted with
    | true => exact hpanicked _ (h.abort rfl)
    | false =>
      cases hset : e.state with
      | true =>
        simp only [Bool.false_eq_true, if_false, if_true, WaitFuture.drop_succeeded]
        exact hready hset
      | false =>
        cases waitData with
        | none => exact hsuspend _ _ (Queue.suspendNew h hset)
        | some d => exact hsuspend _ _ (Queue.suspend h hset)

end Kimojio.Sync
