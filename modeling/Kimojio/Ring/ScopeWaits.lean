import Kimojio.Ring.ScopeLists

/-!
# Kimojio.Ring.ScopeWaits

Which waits the exit of a scope cancels.

An operation is registered once, when it is made; a wait is registered at
every poll that leaves it pending, in the list of the scope that is being
polled then. So the exit of a scope cancels only waits that were first
polled in it, as long as a pending wait is not polled again in a scope that
was not there at its first poll.
-/

namespace Kimojio.Ring

/-- The scopes that were being polled at the first poll of a wait. -/
def firstOf (waits : List Wait) (w : Nat) : Option (List Nat) := (waits[w]?).bind Wait.first

/-- A wait is in the list of a scope, or was canceled by its exit, only if it
was first polled in that scope. -/
structure Scoped (lists : List IoScopeCompletions) (waits : List Wait) : Prop where
  listed : ∀ l list, lists[l]? = some list → ∀ w ∈ list.waits,
    ∃ chain, firstOf waits w = some chain ∧ l ∈ chain
  canceled : ∀ (w : Nat) (wait : Wait), waits[w]? = some wait → ∀ s ∈ wait.canceledBy,
    ∃ chain, wait.first = some chain ∧ s ∈ chain

theorem firstOf_eq (hw : waits[w]? = some wait) : firstOf waits w = wait.first := by
  unfold firstOf
  rw [hw]
  rfl

theorem firstOf_set (hw : waits[w]? = some wait) :
    firstOf (waits.set w wait') w' = if w' = w then wait'.first else firstOf waits w' := by
  have hlt := (List.getElem?_eq_some_iff.mp hw).1
  unfold firstOf
  by_cases heq : w' = w
  · rw [if_pos heq, heq, List.getElem?_set_self hlt]
    rfl
  · rw [if_neg heq, List.getElem?_set_ne (Ne.symm heq)]

theorem firstOf_append (h : firstOf waits w = some chain) :
    firstOf (waits ++ [wait]) w = some chain := by
  obtain ⟨wait', hw, hfirst⟩ := Option.bind_eq_some_iff.mp h
  unfold firstOf
  rw [List.getElem?_append_left (List.getElem?_eq_some_iff.mp hw).1, hw]
  exact hfirst

/-! ## Waits that are canceled -/

/-- A wait whose flag may have been set by one of the lists of waits. -/
theorem mem_cancelWaits (h : (Thread.cancelWaits cause ws waits)[w]? = some wait') :
    ∃ wait, waits[w]? = some wait ∧ wait'.first = wait.first ∧
      ∀ s ∈ wait'.canceledBy, s ∈ wait.canceledBy ∨ w ∈ ws ∧ cause = some s := by
  induction ws generalizing waits with
  | nil => exact ⟨wait', h, rfl, fun s hs => .inl hs⟩
  | cons v ws ih =>
    obtain ⟨wait, hw, hfirst, hby⟩ := ih h
    rw [List.getElem?_modify] at hw
    obtain ⟨old, hold, heq⟩ := Option.map_eq_some_iff.mp hw
    refine ⟨old, hold, ?_, fun s hs => ?_⟩
    · rw [hfirst, ← heq]
      split <;> rfl
    · rcases hby s hs with hs | ⟨hw, hcause⟩
      · rw [← heq] at hs
        split at hs
        · next hv =>
          rcases List.mem_append.mp hs with hs | hs
          · exact .inr ⟨hv ▸ List.mem_cons_self .., Option.mem_toList.mp hs⟩
          · exact .inl hs
        · exact .inl hs
      · exact .inr ⟨List.mem_cons_of_mem _ hw, hcause⟩

theorem firstOf_cancelWaits (cause : Option Nat) (ws : List Nat) (waits : List Wait) (w : Nat) :
    firstOf (Thread.cancelWaits cause ws waits) w = firstOf waits w := by
  induction ws generalizing waits with
  | nil => rfl
  | cons v ws ih =>
    refine (ih _).trans ?_
    unfold firstOf
    rw [List.getElem?_modify]
    cases waits[w]? with
    | none => rfl
    | some wait =>
      show (if v = w then _ else _ : Wait).first = _
      split <;> rfl

namespace Scoped

variable {lists : List IoScopeCompletions} {waits : List Wait} {l w : Nat}
  {list : IoScopeCompletions} {wait : Wait}

theorem new : Scoped [] [] := ⟨fun _ _ h => (by cases h), fun _ _ h => (by cases h)⟩

/-! ## Lists -/

section
variable (h : Scoped lists waits)
include h

theorem ioScope : Scoped (lists ++ [⟨[], []⟩]) waits := by
  refine ⟨fun l list hl => ?_, h.canceled⟩
  rw [List.getElem?_append] at hl
  split at hl
  · exact h.listed l list hl
  · cases List.mem_singleton.mp (List.mem_of_getElem? hl)
    exact fun w hw => (by cases hw)

/-- A list of which waits may have been taken. -/
theorem setList (hl : lists[l]? = some list) (completions : List Ref)
    (hsub : rest ⊆ list.waits) : Scoped (lists.set l ⟨completions, rest⟩) waits := by
  refine ⟨fun l' list' hl' w hw => ?_, h.canceled⟩
  rcases mem_of_set hl' with ⟨rfl, rfl⟩ | ⟨_, hl'⟩
  · exact h.listed l' list hl w (hsub hw)
  · exact h.listed l' list' hl' w hw

/-- A wait is registered in a scope in which it was first polled. -/
theorem register (hl : lists[l]? = some list)
    (hfirst : firstOf waits w = some chain) (hmem : l ∈ chain) :
    Scoped (lists.set l { list with waits := list.waits ++ [w] }) waits := by
  refine ⟨fun l' list' hl' w' hw' => ?_, h.canceled⟩
  rcases mem_of_set hl' with ⟨rfl, rfl⟩ | ⟨_, hl'⟩
  · rcases List.mem_append.mp hw' with hw' | hw'
    · exact h.listed l' list hl w' hw'
    · rw [List.mem_singleton.mp hw']
      exact ⟨chain, hfirst, hmem⟩
  · exact h.listed l' list' hl' w' hw'

/-! ## Waits -/

theorem newWait : Scoped lists (waits ++ [.new]) := by
  refine ⟨fun l list hl w hw => ?_, fun w wait hw => ?_⟩
  · obtain ⟨chain, hfirst, hmem⟩ := h.listed l list hl w hw
    exact ⟨chain, firstOf_append hfirst, hmem⟩
  · rw [List.getElem?_append] at hw
    split at hw
    · exact h.canceled w wait hw
    · cases List.mem_singleton.mp (List.mem_of_getElem? hw)
      exact fun s hs => (by cases hs)

/-- A wait of which the first poll, if there was one, stays. -/
theorem setWait (hw : waits[w]? = some wait)
    (hfirst : ∀ chain, wait.first = some chain → wait'.first = some chain)
    (hby : wait'.canceledBy = wait.canceledBy) : Scoped lists (waits.set w wait') := by
  refine ⟨fun l list hl w' hw' => ?_, fun w' wait'' hw' s hs => ?_⟩
  · obtain ⟨chain, hchain, hmem⟩ := h.listed l list hl w' hw'
    refine ⟨chain, ?_, hmem⟩
    rw [firstOf_set hw]
    split
    · next heq =>
      rw [heq, firstOf_eq hw] at hchain
      exact hfirst chain hchain
    · exact hchain
  · rcases mem_of_set hw' with ⟨rfl, rfl⟩ | ⟨_, hw'⟩
    · rw [hby] at hs
      obtain ⟨chain, hchain, hmem⟩ := h.canceled w' wait hw s hs
      exact ⟨chain, hfirst chain hchain, hmem⟩
    · exact h.canceled w' wait'' hw' s hs

theorem polledIn (hw : waits[w]? = some wait) (scopes : List Nat)
    (outcome : Option Bool) :
    Scoped lists (waits.set w { wait.polledIn scopes with outcome }) := by
  refine h.setWait hw (fun chain hchain => ?_) rfl
  show some (wait.first.getD scopes) = _
  rw [hchain]
  rfl

/-- The exit of a scope cancels what is in its list. -/
theorem cancelWaits (hl : lists[l]? = some list)
    (hcause : ∀ s, cause = some s → s = l) :
    Scoped lists (Thread.cancelWaits cause list.waits waits) := by
  refine ⟨fun l' list' hl' w hw => ?_, fun w wait hw s hs => ?_⟩
  · rw [firstOf_cancelWaits]
    exact h.listed l' list' hl' w hw
  · obtain ⟨old, hold, hfirst, hby⟩ := mem_cancelWaits hw
    rw [hfirst]
    rcases hby s hs with hs | ⟨hw, hs⟩
    · exact h.canceled w old hold s hs
    · obtain ⟨chain, hchain, hmem⟩ := h.listed l list hl w hw
      rw [firstOf_eq hold] at hchain
      rw [hcause s hs]
      exact ⟨chain, hchain, hmem⟩

end

end Scoped

namespace Thread

/-- A wait that was polled before stays pending only in a scope that was
there at its first poll, or outside of all scopes. -/
def keepsScope (th : Thread) : Label → Bool
  | .pollWait w false false =>
    match firstOf th.waits w with
    | none => true
    | some chain => (polled th.frames).head?.all chain.contains
  | _ => true

variable {th th' : Thread}

theorem scoped_registerIo (h : Scoped th.lists th.waits) :
    Scoped (th.registerIo t r).lists (th.registerIo t r).waits := by
  unfold registerIo
  split
  · exact h
  · split
    · exact h
    · next list hl => exact h.setList hl _ (List.Subset.refl _)

theorem scoped_cancelAndWait (h : Scoped th.lists th.waits) :
    Scoped (th.cancelAndWait t s outer).lists (th.cancelAndWait t s outer).waits := by
  unfold cancelAndWait
  dsimp only
  split <;> exact h

/-- A wait that stays pending is registered in the innermost scope that is
being polled. -/
theorem scoped_waitPending (h : Scoped th.lists th.waits) (hs : th.slotted)
    (hkeeps : th.keepsScope (.pollWait w false false) = true) (hw : th.waits[w]? = some wait)
    (ht : th.current = some t) :
    Scoped ({ th with waits := th.waits.set w (wait.polledIn (polled th.frames)) }.registerWait
        t w).lists
      ({ th with waits := th.waits.set w (wait.polledIn (polled th.frames)) }.registerWait
        t w).waits := by
  have hpolled := h.polledIn hw (polled th.frames) wait.outcome
  unfold registerWait
  split
  · exact hpolled
  · next l hslot =>
    split
    · exact hpolled
    · next list hl =>
      have hfirst : firstOf (th.waits.set w (wait.polledIn (polled th.frames))) w =
          some (wait.first.getD (polled th.frames)) := by
        rw [firstOf_set hw, if_pos rfl]
        rfl
      refine hpolled.register hl hfirst ?_
      unfold slotted at hs
      rw [ht] at hs
      have hhead := hs.slot_current.symm.trans hslot
      cases hchain : wait.first with
      | none => exact List.mem_of_mem_head? hhead
      | some chain =>
        simp only [keepsScope, firstOf_eq hw, hchain, hhead] at hkeeps
        simpa using hkeeps

theorem scoped_moves (h : Scoped th.lists th.waits) (hs : th.slotted)
    (hkeeps : th.keepsScope label = true) (hm : Moves th label th') :
    Scoped th'.lists th'.waits := by
  cases hm with
  | made => exact scoped_registerIo h
  | ioScope => exact h.ioScope
  | scopeReady | guardExit => exact scoped_cancelAndWait h
  | gather hf hl hr =>
    have hgathered := hs.gathered _ _ _ (hf ▸ List.mem_cons_self ..)
    refine (h.cancelWaits hl fun s heq => ?_).setList hl _ (List.nil_subset _)
    cases heq
    exact hgathered.symm
  | settling hf hl | settled hf hl | ioScopeCancel hc hslot hl =>
    exact h.setList hl _ (List.Subset.refl _)
  | guardAborted hf hg hl he hc => exact h.setList hl _ (List.nil_subset _)
  | ioScopeCanceled hf hl =>
    exact (h.cancelWaits hl fun s heq => (by cases heq)).setList hl _ (List.nil_subset _)
  | newWait => exact h.newWait
  | waitCanceled hw ho hc => exact h.setWait hw (fun _ hchain => hchain) rfl
  | waitPolled hw ho hc outcome hout => exact h.polledIn hw _ outcome
  | waitDropped hw => exact h.setWait hw (fun _ hchain => hchain) rfl
  | waitPending hw ho hc ht => exact scoped_waitPending h hs hkeeps hw ht
  | _ => exact h

end Thread

/-- A wait is canceled by the exit or drop of a scope only if it was first
polled while that scope, or one inside it, was being polled. -/
def WaitsScoped (th : Thread) : Prop :=
  ∀ (w : Nat) (wait : Wait), th.waits[w]? = some wait → ∀ s ∈ wait.canceledBy,
    ∃ chain, wait.first = some chain ∧ s ∈ chain

/-- **Waits**: in every run in which a pending wait is polled again only in
scopes that were there at its first poll. -/
theorem waits_scoped {th : Thread}
    (h : threads.Reaches (fun th label => th.keepsScope label = true) th) : WaitsScoped th := by
  have hscoped : Scoped th.lists th.waits := by
    induction h with
    | start => exact Scoped.new
    | next hreach hkeeps hnext ih =>
      exact Thread.scoped_moves ih (slotted_of_reaches hreach) hkeeps (Thread.next_moves hnext)
  exact hscoped.canceled

/-- Two scopes with a wait each: the exit of the inner one cancels its own
wait and leaves the other. -/
theorem waits_scoped_two : ∃ th : Thread,
    threads.Reaches (fun th label => th.keepsScope label = true) th ∧
      th.waits = [⟨false, none, some [0], [], false⟩,
        ⟨false, some false, some [1, 0], [1], false⟩] ∧
      WaitsScoped th := by
  have hrun : (threads.restrict Thread.keepsScope).run threads.start
      [.enter 0, .ioScope, .scopePoll 0, .newWait, .pollWait 0 false false, .ioScope, .scopePoll 1,
        .newWait, .pollWait 1 false false, .scopeReady, .gather, .settle,
        .pollWait 1 false false] = some _ := rfl
  have hreach := System.Reaches.start.run hrun
  exact ⟨_, hreach, rfl, waits_scoped hreach⟩

/-- A wait is pending before the inner scope starts and is polled again in
it: the exit of the inner scope cancels it. -/
theorem exists_not_waits_scoped : ∃ th : Thread, threads.Reaches (fun _ _ => True) th ∧
    th.waits = [⟨false, some false, some [0], [1], false⟩] ∧ ¬ WaitsScoped th := by
  have hrun : threads.run threads.start
      [.enter 0, .ioScope, .scopePoll 0, .newWait, .pollWait 0 false false, .ioScope, .scopePoll 1,
        .pollWait 0 false false, .scopeReady, .gather, .settle, .pollWait 0 false false] =
      some _ := rfl
  refine ⟨_, System.reaches_run hrun, rfl, fun hscoped => ?_⟩
  obtain ⟨chain, hchain, hmem⟩ := hscoped 0 ⟨false, some false, some [0], [1], false⟩ rfl 1
    (List.mem_singleton_self 1)
  cases hchain
  exact absurd hmem (by decide)

end Kimojio.Ring
