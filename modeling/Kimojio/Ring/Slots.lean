import Kimojio.Table
import Kimojio.Ring.Moves

/-!
# Kimojio.Ring.Slots

Where the list of a scope is.

The slot of the running task has the list of the innermost scope whose body
is being polled, and every other slot is empty: the stack alone says what is
installed. This is carried through the swaps by `Saved`, which says the same
of the lists that are saved on the stack.
-/

namespace Kimojio.Ring

namespace Frame

/-- The scope whose list is not in its future. -/
def taken : Frame → Option Nat
  | .polling s _ | .exiting s _ _ => some s
  | _ => none

end Frame

/-- What a poll saved is the list of the scope around it. -/
def Saved : List Frame → Prop
  | [] => True
  | .polling _ outer :: frames => outer = (polled frames).head? ∧ Saved frames
  | _ :: frames => Saved frames

/-- The slots, the stack and the scopes fit together; `n` lists were made. -/
structure Slotted (n : Nat) (slots : Nat → Option Nat) (current : Option Nat)
    (frames : List Frame) (scopes : List IoScopeFuture) : Prop where
  length : n = scopes.length
  slot : ∀ t, slots t = if current = some t then (polled frames).head? else none
  idle : current = none → polled frames = []
  saved : Saved frames
  once : (frames.filterMap Frame.scope).Nodup
  inUse : ∀ s ∈ frames.filterMap Frame.scope, ∃ c, scopes[s]? = some ⟨c, false⟩
  guard : ∀ s c, scopes[s]? = some ⟨c, false⟩ → s ∉ frames.filterMap Frame.taken → c = some s
  gathered : ∀ s l b, .exiting s l b ∈ frames → l = s

namespace Frame

theorem taken_scope {frame : Frame} (h : frame.taken = some s) : frame.scope = some s := by
  cases frame with
  | polling | exiting => exact h
  | _ => cases h

end Frame

theorem taken_subset {frames : List Frame} (h : s ∈ frames.filterMap Frame.taken) :
    s ∈ frames.filterMap Frame.scope := by
  obtain ⟨frame, hframe, hs⟩ := List.mem_filterMap.mp h
  exact List.mem_filterMap.mpr ⟨frame, hframe, Frame.taken_scope hs⟩

namespace Slotted

variable {n : Nat} {slots : Nat → Option Nat} {current : Option Nat} {frames : List Frame}
  {scopes : List IoScopeFuture} {s t : Nat}

theorem new : Slotted 0 (fun _ => none) none [] [] where
  length := rfl
  slot := fun t => by simp
  idle := fun _ => rfl
  saved := trivial
  once := List.nodup_nil
  inUse := fun _ h => by cases h
  guard := fun _ _ h => by cases h
  gathered := fun _ _ _ h => by cases h

theorem slot_current (h : Slotted n slots (some t) frames scopes) :
    slots t = (polled frames).head? := by
  rw [h.slot, if_pos rfl]

/-- A frame that belongs to no scope comes or goes. -/
theorem push (h : Slotted n slots current frames scopes) (hscope : frame.scope = none) :
    Slotted n slots current (frame :: frames) scopes := by
  cases frame with
  | canceling | dropping =>
    refine ⟨h.length, h.slot, h.idle, h.saved, h.once, h.inUse, h.guard, fun s l b hmem => ?_⟩
    rcases List.mem_cons.mp hmem with heq | hmem
    · cases heq
    · exact h.gathered s l b hmem
  | _ => cases hscope

theorem pop (h : Slotted n slots current (frame :: frames) scopes) (hscope : frame.scope = none) :
    Slotted n slots current frames scopes := by
  cases frame with
  | canceling | dropping =>
    exact ⟨h.length, h.slot, h.idle, h.saved, h.once, h.inUse, h.guard,
      fun s l b hmem => h.gathered s l b (List.mem_cons_of_mem _ hmem)⟩
  | _ => cases hscope

theorem enter (h : Slotted n slots none [] scopes) (t : Nat) :
    Slotted n slots (some t) [] scopes := by
  refine { h with slot := fun t' => ?_, idle := fun _ => rfl }
  rw [h.slot]
  simp [polled]

theorem leave (h : Slotted n slots current [] scopes) : Slotted n slots none [] scopes := by
  refine { h with slot := fun t' => ?_, idle := fun _ => rfl }
  rw [h.slot]
  simp [polled]

theorem ioScope (h : Slotted n slots current frames scopes) :
    Slotted (n + 1) slots current frames (scopes ++ [⟨some n, false⟩]) := by
  refine { h with length := ?_, inUse := fun s hs => ?_, guard := fun s c hc hs => ?_ }
  · rw [h.length, List.length_append]
    rfl
  · obtain ⟨c, hc⟩ := h.inUse s hs
    exact ⟨c, by rw [List.getElem?_append_left (List.getElem?_eq_some_iff.mp hc).1, hc]⟩
  · rw [List.getElem?_append] at hc
    split at hc
    · exact h.guard s c hc hs
    · next hlt =>
      rw [List.getElem?_singleton] at hc
      obtain ⟨hzero, ⟨⟩⟩ := Option.ite_some_none_eq_some.mp hc
      rw [h.length]
      congr 1
      omega

theorem free_list {th : Thread} (h : Slotted n th.slots th.current th.frames th.scopes)
    (hfree : th.isFree s = true) :
    th.scopes[s]? = some ⟨some s, false⟩ ∧ s ∉ th.frames.filterMap Frame.scope := by
  unfold Thread.isFree at hfree
  simp only [Bool.and_eq_true, Bool.not_eq_true', List.contains_eq_mem,
    decide_eq_false_iff_not] at hfree
  obtain ⟨hopen, hnot⟩ := hfree
  cases hs : th.scopes[s]? with
  | none =>
    rw [hs] at hopen
    cases hopen
  | some scope =>
    obtain ⟨completions, ended⟩ := scope
    rw [hs] at hopen
    have hended : ended = false := by simpa using hopen
    subst hended
    rw [h.guard s completions hs fun hmem => hnot (taken_subset hmem)]
    exact ⟨rfl, hnot⟩

/-! ## The swaps -/

/-- `replace_io_scope_completions` for the running task. -/
theorem slot_set (hother : ∀ t', t' ≠ t → slots t' = none) (hlist : list = (polled frames).head?)
    (t' : Nat) :
    (if t' = t then list else slots t') =
      if some t = some t' then (polled frames).head? else none := by
  by_cases ht : t' = t
  · rw [if_pos ht, if_pos (by rw [ht]), hlist]
  · rw [if_neg ht, if_neg fun heq => ht (Option.some.inj heq).symm, hother t' ht]

theorem slot_other (h : Slotted n slots (some t) frames scopes) (t' : Nat) (ht : t' ≠ t) :
    slots t' = none := by
  rw [h.slot, if_neg fun heq => ht (Option.some.inj heq).symm]

theorem scopePoll (h : Slotted n slots (some t) frames scopes)
    (hs : scopes[s]? = some ⟨some s, false⟩) (hnot : s ∉ frames.filterMap Frame.scope) :
    Slotted n (fun t' => if t' = t then some s else slots t') (some t)
      (.polling s (slots t) :: frames) (scopes.set s ⟨none, false⟩) where
  length := by rw [List.length_set, h.length]
  slot := slot_set h.slot_other rfl
  idle := fun hc => by cases hc
  saved := ⟨h.slot_current, h.saved⟩
  once := List.nodup_cons.mpr ⟨hnot, h.once⟩
  inUse := by
    intro s' hs'
    rcases List.mem_cons.mp hs' with rfl | hs'
    · have hlt := (List.getElem?_eq_some_iff.mp hs).1
      exact ⟨none, by rw [List.getElem?_set_self hlt]⟩
    · obtain ⟨c, hc⟩ := h.inUse s' hs'
      have hne : s ≠ s' := fun heq => hnot (heq ▸ hs')
      exact ⟨c, by rw [List.getElem?_set_ne hne, hc]⟩
  guard := by
    intro s' c hc hs'
    rcases mem_of_set hc with ⟨rfl, _⟩ | ⟨_, hc⟩
    · exact absurd (List.mem_cons_self ..) hs'
    · exact h.guard s' c hc fun hmem => hs' (List.mem_cons_of_mem _ hmem)
  gathered := by
    intro s' l b hmem
    rcases List.mem_cons.mp hmem with heq | hmem
    · cases heq
    · exact h.gathered s' l b hmem

theorem head_unique (h : Slotted n slots current (frame :: frames) scopes)
    (hscope : frame.scope = some s) : s ∉ frames.filterMap Frame.scope := by
  have honce := h.once
  rw [List.filterMap_cons_some hscope] at honce
  exact (List.nodup_cons.mp honce).1

theorem tail_saved (h : Saved (frame :: frames)) : Saved frames := by
  cases frame with
  | polling => exact h.2
  | _ => exact h

theorem exit (b : Bool) (h : Slotted n slots current (frame :: frames) scopes)
    (hscope : frame.scope = some s)
    (hslot : ∀ t, slots' t = if current = some t then (polled frames).head? else none)
    (hidle : current = none → polled frames = []) :
    Slotted n slots' current (.exiting s s b :: frames) scopes where
  length := h.length
  slot := hslot
  idle := hidle
  saved := by
    show Saved frames
    exact tail_saved h.saved
  once := by
    have honce := h.once
    rw [List.filterMap_cons_some hscope] at honce
    exact honce
  inUse := by
    have hinUse := h.inUse
    rw [List.filterMap_cons_some hscope] at hinUse
    exact hinUse
  guard := by
    intro s' c hc hs'
    refine h.guard s' c hc fun hmem => ?_
    obtain ⟨frame', hframe', htaken⟩ := List.mem_filterMap.mp hmem
    rcases List.mem_cons.mp hframe' with rfl | hframe'
    · have heq : s' = s := Option.some.inj ((Frame.taken_scope htaken).symm.trans hscope)
      exact hs' (heq ▸ List.mem_cons_self ..)
    · exact hs' (List.mem_cons_of_mem _ (List.mem_filterMap.mpr ⟨frame', hframe', htaken⟩))
  gathered := by
    intro s' l b' hmem
    rcases List.mem_cons.mp hmem with heq | hmem
    · cases heq
      rfl
    · exact h.gathered s' l b' (List.mem_cons_of_mem _ hmem)

/-- The frame of a scope is removed, and the scope changes with it. -/
theorem leaveFrame (h : Slotted n slots current (frame :: frames) scopes)
    (hscope : frame.scope = some s)
    (hslot : ∀ t, slots' t = if current = some t then (polled frames).head? else none)
    (hidle : current = none → polled frames = [])
    (hguard : scope = ⟨some s, false⟩ ∨ scope.ended = true) :
    Slotted n slots' current frames (scopes.set s scope) where
  length := by rw [List.length_set, h.length]
  slot := hslot
  idle := hidle
  saved := tail_saved h.saved
  once := by
    have honce := h.once
    rw [List.filterMap_cons_some hscope] at honce
    exact (List.nodup_cons.mp honce).2
  inUse := by
    intro s' hs'
    have hne : s ≠ s' := fun heq => h.head_unique hscope (heq ▸ hs')
    obtain ⟨c, hc⟩ := h.inUse s' (by
      rw [List.filterMap_cons_some hscope]
      exact List.mem_cons_of_mem _ hs')
    exact ⟨c, by rw [List.getElem?_set_ne hne, hc]⟩
  guard := by
    intro s' c hc hs'
    rcases mem_of_set hc with ⟨rfl, hscope'⟩ | ⟨hne, hc⟩
    · rcases hguard with rfl | hended
      · cases hscope'
        rfl
      · rw [← hscope'] at hended
        cases hended
    · refine h.guard s' c hc fun hmem => ?_
      obtain ⟨frame', hframe', htaken⟩ := List.mem_filterMap.mp hmem
      rcases List.mem_cons.mp hframe' with rfl | hframe'
      · exact hne (Option.some.inj ((Frame.taken_scope htaken).symm.trans hscope))
      · exact hs' (List.mem_filterMap.mpr ⟨frame', hframe', htaken⟩)
  gathered := fun s' l b hmem => h.gathered s' l b (List.mem_cons_of_mem _ hmem)

theorem unwind (h : Slotted n slots current frames scopes)
    (hs : scopes[s]? = some ⟨some s, false⟩) (hnot : s ∉ frames.filterMap Frame.scope) :
    Slotted n slots current (.unwinding s :: frames) scopes := by
  refine { h with
    once := List.nodup_cons.mpr ⟨hnot, h.once⟩, inUse := fun s' hs' => ?_,
    gathered := fun s' l b hmem => ?_ }
  · rcases List.mem_cons.mp hs' with rfl | hs'
    · exact ⟨_, hs⟩
    · exact h.inUse s' hs'
  · rcases List.mem_cons.mp hmem with heq | hmem
    · cases heq
    · exact h.gathered s' l b hmem

/-- The list of a scope whose body is being dropped is in its guard. -/
theorem unwinding_list (h : Slotted n slots current (.unwinding s :: frames) scopes) :
    scopes[s]? = some ⟨some s, false⟩ := by
  obtain ⟨c, hc⟩ := h.inUse s (List.mem_cons_self ..)
  rw [hc, h.guard s c hc fun hmem => h.head_unique rfl (taken_subset hmem)]

/-- A poll is left: the slot has what was saved. -/
theorem polling_slot (h : Slotted n slots (some t) (.polling s outer :: frames) scopes) (t' : Nat) :
    (if t' = t then outer else slots t') =
      if some t = some t' then (polled frames).head? else none :=
  slot_set h.slot_other h.saved.1 t'

end Slotted

namespace Thread

variable {th th' : Thread}

/-- The slots and the stack of a thread fit together. -/
def slotted (th : Thread) : Prop :=
  Slotted th.lists.length th.slots th.current th.frames th.scopes

/-- A list changes and stays in its place. -/
theorem slotted_setList (h : th.slotted) (l : Nat) (list : IoScopeCompletions) :
    (th.setList l list).slotted := by
  unfold slotted setList
  rw [List.length_set]
  exact h

theorem slotted_registerIo (h : th.slotted) (t : Nat) (r : Ref) : (th.registerIo t r).slotted := by
  unfold registerIo
  split
  · exact h
  · split
    · exact h
    · exact slotted_setList h _ _

theorem slotted_registerWait (h : th.slotted) (t w : Nat) : (th.registerWait t w).slotted := by
  unfold registerWait
  split
  · exact h
  · split
    · exact h
    · exact slotted_setList h _ _

theorem slotted_moves (h : th.slotted) (hm : Moves th label th') : th'.slotted := by
  cases hm with
  | enter hc hf =>
    unfold slotted at h ⊢
    rw [hc, hf] at h
    simp only [hf]
    exact h.enter _
  | leave hf =>
    unfold slotted at h ⊢
    rw [hf] at h
    simp only [hf]
    exact h.leave
  | faulted | polled | ready | canceled | dropAborted | dropNow | dropBorrowed | newWait
  | waitCanceled | waitPolled | waitDropped | take | post | process => exact h
  | made =>
    apply slotted_registerIo
    exact h
  | dropWaits => exact h.push rfl
  | dropped hf =>
    unfold slotted at h
    rw [hf] at h
    exact h.pop rfl
  | ioScope =>
    unfold slotted at h ⊢
    simp only [ioScope, List.length_append, List.length_singleton]
    exact h.ioScope
  | scopePoll hc hs hfree =>
    obtain ⟨hs', hnot⟩ := Slotted.free_list h hfree
    cases hs.symm.trans hs'
    unfold slotted at h ⊢
    rw [hc] at h
    simp only [setSlot, setScope, hc]
    exact h.scopePoll hs hnot
  | scopePending hc hf =>
    unfold slotted at h ⊢
    rw [hc, hf] at h
    simp only [setSlot, setScope, hc]
    exact h.leaveFrame rfl h.polling_slot (fun heq => by cases heq)
      (.inl (by rw [h.slot_current]; rfl))
  | scopeReady hc hf =>
    unfold slotted at h ⊢
    rw [hc, hf] at h
    simp only [cancelAndWait, h.slot_current]
    simp only [polled, List.filterMap_cons, Frame.polled, List.head?_cons, setSlot, hc]
    exact h.exit false rfl h.polling_slot fun heq => by cases heq
  | gather hf =>
    refine slotted_setList ?_ _ _
    unfold slotted at h ⊢
    rw [hf] at h
    have hl := h.gathered _ _ _ (List.mem_cons_self ..)
    subst hl
    exact h.exit true rfl h.slot h.idle
  | settling => exact slotted_setList h _ _
  | settled hf | guardAborted hf =>
    unfold slotted at h ⊢
    rw [hf] at h
    simp only [endScope, setScope, setList, List.length_set]
    exact h.leaveFrame rfl h.slot h.idle (.inr rfl)
  | scopeDrop hfree =>
    obtain ⟨hs, hnot⟩ := Slotted.free_list h hfree
    exact Slotted.unwind h hs hnot
  | guardTaken hf | guardEmpty hf =>
    unfold slotted at h ⊢
    rw [hf] at h
    exact h.leaveFrame rfl h.slot h.idle (.inr rfl)
  | guardExit hf hg hl hc =>
    unfold slotted at h ⊢
    rw [hf] at h
    rw [h.unwinding_list] at hg
    cases hg
    simp only [cancelAndWait, setSlot, if_pos]
    refine h.exit false rfl (fun t' => ?_) h.idle
    refine Eq.trans ?_ (h.slot t')
    split
    · next ht => rw [ht]
    · rfl
  | ioScopeCancel =>
    refine slotted_setList ?_ _ _
    exact Slotted.push h rfl
  | ioScopeCanceled hf =>
    refine slotted_setList ?_ _ _
    unfold slotted at h ⊢
    rw [hf] at h
    exact h.pop rfl
  | waitPending =>
    apply slotted_registerWait
    exact h

end Thread

end Kimojio.Ring
