import Kimojio.Ring.Slots
import Kimojio.Ring.Reuse

/-!
# Kimojio.Ring.ScopeLists

What the list of a scope has in it, and what its exit cancels.

An operation is recorded in the list of the innermost scope that is being
polled when it is made, and in no other; the exit of a scope cancels what is
in its own list. While the body of a scope is dropped, its futures cancel
their own operations, wherever these were made.
-/

namespace Kimojio.Ring

/-- The innermost scope that was being polled when an operation was made. -/
def home (chains : List (List Nat)) (o : Nat) : Option Nat := (chains[o]?).bind List.head?

theorem home_append (h : home chains o = some s) (chain : List Nat) :
    home (chains ++ [chain]) o = some s := by
  obtain ⟨c, hc, hs⟩ := Option.bind_eq_some_iff.mp h
  unfold home
  rw [List.getElem?_append_left (List.getElem?_eq_some_iff.mp hc).1, hc]
  exact hs

/-! ## Whole lists of references -/

namespace Io

variable {io io' : Io}

theorem retained_subset (h : io.retainIncomplete n rest = (io', kept)) : ∀ r ∈ kept, r ∈ rest :=
  retain_rule (P := fun _ l => ∀ r ∈ l, r ∈ rest) (fun hp h r hr => h r (hp.mem_iff.mpr hr))
    (fun _ h r hr => h r (List.mem_cons_of_mem _ hr)) (fun _ hr => hr) h

namespace Later

theorem retainIncomplete (h : io.retainIncomplete n rest = (io', kept)) :
    io.Later ends [] io' :=
  retain_rule (P := fun io₁ _ => io.Later ends [] io₁) (fun _ h => h)
    (fun _ h => h.trans (.returnCompletion _ _)) (.refl io) h

/-- One request for every reference of a list. -/
theorem foldl {refs : List Ref} {f : Io → Ref → Io}
    (hf : ∀ (io : Io) r, ends r.addr → io.Later ends [(r.op, cause)] (f io r)) (io : Io)
    (hends : ∀ r ∈ refs, ends r.addr) :
    ∃ new, io.Later ends new (refs.foldl f io) ∧ ∀ p ∈ new, ∃ r ∈ refs, p = (r.op, cause) := by
  induction refs generalizing io with
  | nil => exact ⟨[], .refl io, fun p hp => by cases hp⟩
  | cons r refs ih =>
    have ⟨hr, hrefs⟩ := List.forall_mem_cons.mp hends
    obtain ⟨new, hl, hnew⟩ := ih (f io r) hrefs
    refine ⟨_, (hf io r hr).append hl, fun p hp => ?_⟩
    rcases List.mem_append.mp hp with hp | hp
    · obtain ⟨q, hq, heq⟩ := hnew p hp
      exact ⟨q, List.mem_cons_of_mem _ hq, heq⟩
    · exact ⟨r, List.mem_cons_self .., List.mem_singleton.mp hp⟩

theorem cancelAll (io : Io) (cause : Cause) (hends : ∀ r ∈ refs, ends r.addr) :
    ∃ new, io.Later ends new (io.cancelAll cause refs) ∧
      ∀ p ∈ new, ∃ r ∈ refs, p = (r.op, cause) :=
  foldl (fun _ _ hr => .cancel cause fun _ _ _ => hr) io hends

theorem drain (io : Io) (cause : Cause) (hends : ∀ r ∈ refs, ends r.addr) :
    ∃ new, io.Later ends new (io.drain cause refs) ∧
      ∀ p ∈ new, ∃ r ∈ refs, p = (r.op, cause) := by
  refine foldl (fun io r hr => ?_) io hends
  have hcancel : io.Later ends _ _ := .cancel cause fun _ _ _ => hr
  exact hcancel.trans (.returnCompletion _ r.addr)

theorem dropAll (io : Io) (refs : List Ref) : io.Later ends [] (io.dropAll refs) := by
  induction refs generalizing io with
  | nil => exact .refl io
  | cons r refs ih => exact .trans (.dropRc io r.addr) (ih _)

end Later

/-- A new operation, and what it leaves of the others. -/
structure Makes (io io' : Io) (a : Nat) : Prop where
  places : io'.places = io.places ++ [a]
  requests : io'.requests = io.requests
  older : ∀ o c, io'.completionOf o = some c → o < io.nextOp → io.completionOf o = some c

theorem newCompletion_makes (h : io.newCompletion fresh c = (io', some a))
    (hop : c.op = io.nextOp) : io.Makes io' a := by
  -- at another address nothing changes, and at this one it is a new operation
  have heffect : (∀ b c', io'.heap.get b = some c' → b = a ∧ c' = c ∨ io.heap.get b = some c') ∧
      io'.places = io.places ++ [a] ∧ io'.requests = io.requests := by
    unfold newCompletion at h
    split at h
    · split at h <;> cases h
      exact ⟨fun b _ => RcHeap.cases_overwrite _ _ b, rfl, rfl⟩
    · cases h
      exact ⟨fun b _ => RcHeap.cases_alloc _ _ b, rfl, rfl⟩
  obtain ⟨hget, hplaces, hrequests⟩ := heffect
  refine ⟨hplaces, hrequests, fun o c' hc' hlt => ?_⟩
  unfold completionOf at hc' ⊢
  obtain ⟨b, hb, hget'⟩ := Option.bind_eq_some_iff.mp hc'
  obtain ⟨hget', heq⟩ := Option.filter_eq_some_iff.mp hget'
  rw [hplaces, List.getElem?_append_left hlt] at hb
  rw [hb]
  refine Option.filter_eq_some_iff.mpr ⟨(hget b c' hget').resolve_left fun hnew => ?_, heq⟩
  rw [hnew.2, hop, beq_iff_eq] at heq
  omega

theorem Makes.clone (h : io.Makes io' a) : io.Makes (io'.clone b) a := by
  refine ⟨h.places, h.requests, fun o c hc => h.older o c ?_⟩
  simpa only [completionOf, Io.clone, RcHeap.get_clone] using hc

end Io

/-! ## What a move does to the operations -/

namespace Thread

/-- The operation that a step completes: the runtime processes its result, or
its future cancels it before it was submitted. -/
def completes (th : Thread) : Label → Option Ref
  | .process b => (th.io.rings b).cq.head?.bind Cqe.userData
  | .cancel i | .drop i => ((th.futures[i]?).map RingFuture.handle).filter fun r =>
      (th.io.heap.get r.addr).any (!·.state.isSubmitted)
  | _ => none

/-- The list whose operations a step cancels. -/
def canceledList (th : Thread) : Label → Option Nat
  | .gather =>
    match th.frames with
    | .exiting _ l _ :: _ => some l
    | _ => none
  | .ioScopeCancel => th.current.bind th.slots
  | _ => none

/-- Where a step may end an operation. -/
def ends (th : Thread) (label : Label) (a : Nat) : Prop :=
  ∃ r, r.addr = a ∧ (th.completes label = some r ∨
    ∃ l list, th.canceledList label = some l ∧ th.lists[l]? = some list ∧ r ∈ list.completions)

end Thread

/-- A move makes an operation, or takes the operations further. An exit asks
for the cancellation of what its list has. -/
inductive IoMoves (ends : Nat → Prop) (th th' : Thread) : Prop where
  | later (new : List (Nat × Cause)) (hl : th.io.Later ends new th'.io)
      (hchains : th'.chains = th.chains)
      (hnew : ∀ o s, (o, .exit s) ∈ new → ∃ l b list r, .exiting s l b ∈ th.frames ∧
        th.lists[l]? = some list ∧ r ∈ list.completions ∧ r.op = o)
  | made (a : Nat) (hm : th.io.Makes th'.io a)
      (hchains : th'.chains = th.chains ++ [polled th.frames]) (hc : th.current = some t)
      (hth : th' = (th.withFuture io f).registerIo t ⟨a, th.io.nextOp⟩)

namespace IoMoves

variable {th th' : Thread}

theorem quiet (hl : th.io.Later ends [] th'.io) (hchains : th'.chains = th.chains) :
    IoMoves ends th th' :=
  .later [] hl hchains fun _ _ hmem => by cases hmem

/-- The cancellation of an operation by its own future. -/
theorem future {r : Ref} (hl : th.io.Later ends [(r.op, .future)] th'.io)
    (hchains : th'.chains = th.chains) : IoMoves ends th th' :=
  .later _ hl hchains fun _ _ hmem => by simp at hmem

end IoMoves

namespace Thread

variable {th th' : Thread}

theorem io_moves (hinv : Inv th.held th.io) (hm : Moves th label th') :
    IoMoves (th.ends label) th th' := by
  have hcancel {i : Nat} {f : RingFuture} (hf : th.futures[i]? = some f)
      (hlabel : th.completes label = ((th.futures[i]?).map RingFuture.handle).filter fun r =>
        (th.io.heap.get r.addr).any (!·.state.isSubmitted)) :
      th.io.Later (th.ends label) [(f.handle.op, .future)] (th.io.cancel f.handle .future) := by
    refine .cancel _ fun c hc hsub => ⟨f.handle, rfl, .inl ?_⟩
    simp [hlabel, hf, Option.filter, hc, hsub]
  cases hm with
  | faulted hfree hnew => exact (newCompletion_ne_none hinv hfree hnew).elim
  | made hc hlabel hfree hnew =>
    have hmakes := Io.newCompletion_makes hnew rfl
    refine .made _ ?_ ?_ hc rfl
    · unfold registerIo
      split
      · exact hmakes
      · split
        · exact hmakes
        · exact hmakes.clone
    · unfold registerIo
      split
      · rfl
      · split <;> rfl
  | polled hf hp | ready hf hp => exact .quiet (.poll hp) rfl
  | canceled hf | dropWaits hf => exact .future (hcancel hf rfl) rfl
  | dropAborted hf => exact .future (.trans (hcancel hf rfl) (.dropRc ..)) rfl
  | dropNow hf => exact .future (.trans (hcancel hf rfl) (.abandon ..)) rfl
  | dropBorrowed => exact .quiet (.dropRc ..) rfl
  | dropped => exact .quiet (.abandon ..) rfl
  | scopeReady | guardExit =>
    refine .quiet ?_ ?_ <;> unfold cancelAndWait <;> dsimp only <;> split <;>
      exact .refl _
  | gather hf hl hr =>
    have hends (r : Ref) (hrmem : r ∈ _) : th.ends .gather r.addr :=
      ⟨r, rfl, .inr ⟨_, _, by simp [canceledList, hf], hl, Io.retained_subset hr r hrmem⟩⟩
    obtain ⟨new, hlater, hnew⟩ := Io.Later.cancelAll _ (.exit _) hends
    refine .later (new ++ []) (Io.Later.append (.retainIncomplete hr) hlater) rfl fun o s hmem => ?_
    rw [List.append_nil] at hmem
    obtain ⟨r, hrmem, heq⟩ := hnew _ hmem
    cases heq
    refine ⟨_, false, _, r, ?_, hl, Io.retained_subset hr r hrmem, rfl⟩
    rw [hf]
    exact List.mem_cons_self ..
  | settling hf hl hr | settled hf hl hr => exact .quiet (.retainIncomplete hr) rfl
  | guardAborted => exact .quiet (.dropAll ..) rfl
  | ioScopeCancel hc hslot hl =>
    have hends (r : Ref) (hr : r ∈ _) : th.ends .ioScopeCancel r.addr :=
      ⟨r, rfl, .inr ⟨_, _, by simp [canceledList, hc, hslot], hl, hr⟩⟩
    obtain ⟨new, hlater, hnew⟩ := Io.Later.drain th.io (.call _) hends
    refine .later new hlater rfl fun o s hmem => ?_
    obtain ⟨_, _, heq⟩ := hnew _ hmem
    cases heq
  | waitPending =>
    unfold registerWait
    split
    · exact .quiet (.refl _) rfl
    · split <;> exact .quiet (.refl _) rfl
  | take h => exact .quiet (.take h) rfl
  | post h => exact .quiet (.post h) rfl
  | process h => exact .quiet (.processCompletion h fun r hr => ⟨r, rfl, .inl hr⟩) rfl
  | _ => exact .quiet (.refl _) rfl

/-- What is in a list was there, or was made just now in its scope. -/
theorem lists_moves (hs : th.slotted) (hm : Moves th label th') (hl : th'.lists[s]? = some list')
    (hr : r ∈ list'.completions) :
    (∃ list, th.lists[s]? = some list ∧ r ∈ list.completions) ∨
      r.op = th.io.nextOp ∧ (Ring.polled th.frames).head? = some s ∧
        th'.chains = th.chains ++ [Ring.polled th.frames] := by
  have hset : ∀ {l : Nat} {list new : IoScopeCompletions}, th.lists[l]? = some list →
      (th.lists.set l new)[s]? = some list' →
      (∀ q ∈ new.completions, q ∈ list.completions) →
      ∃ list, th.lists[s]? = some list ∧ r ∈ list.completions := by
    intro l list new hlist hl hsub
    rcases mem_of_set hl with ⟨rfl, rfl⟩ | ⟨_, hl⟩
    · exact ⟨list, hlist, hsub r hr⟩
    · exact ⟨list', hl, hr⟩
  cases hm with
  | made hc hlabel hfree hnew =>
    unfold slotted at hs
    rw [hc] at hs
    have hslot := hs.slot_current
    unfold registerIo withFuture at hl ⊢
    split at hl
    · exact .inl ⟨list', hl, hr⟩
    · next l hl' =>
      split at hl
      · exact .inl ⟨list', hl, hr⟩
      · next list hlist =>
        rcases mem_of_set hl with ⟨rfl, rfl⟩ | ⟨_, hl⟩
        · rcases List.mem_append.mp hr with hr | hr
          · exact .inl ⟨list, hlist, hr⟩
          · rw [List.mem_singleton.mp hr]
            exact .inr ⟨rfl, hslot.symm.trans hl', rfl⟩
        · exact .inl ⟨list', hl, hr⟩
  | ioScope =>
    simp only [ioScope, List.getElem?_append] at hl
    split at hl
    · exact .inl ⟨list', hl, hr⟩
    · rw [List.getElem?_singleton] at hl
      obtain ⟨-, rfl⟩ := Option.ite_some_none_eq_some.mp hl
      cases hr
  | scopeReady | guardExit =>
    unfold cancelAndWait at hl
    dsimp only at hl
    split at hl <;> exact .inl ⟨list', hl, hr⟩
  | gather hf hlist hret | settling hf hlist hret =>
    exact .inl (hset hlist hl (Io.retained_subset hret))
  | settled hf hlist | guardAborted hf hg hlist | ioScopeCancel hc hslot hlist =>
    exact .inl (hset hlist hl fun q hq => by cases hq)
  | ioScopeCanceled hf hlist => exact .inl (hset hlist hl fun q hq => hq)
  | waitPending =>
    unfold registerWait at hl
    split at hl
    · exact .inl ⟨list', hl, hr⟩
    · split at hl
      · exact .inl ⟨list', hl, hr⟩
      · next list hlist => exact .inl (hset hlist hl fun q hq => hq)
  | _ => exact .inl ⟨list', hl, hr⟩

end Thread

/-! ## What is recorded -/

/-- Every list has operations of its own scope, and so has every cancellation
by an exit. -/
structure Recorded (th : Thread) : Prop where
  made : th.chains.length = th.io.nextOp
  lists : ∀ s list, th.lists[s]? = some list → ∀ r ∈ list.completions, home th.chains r.op = some s
  exits : ∀ o s, (o, .exit s) ∈ th.io.requests → home th.chains o = some s

namespace Recorded

variable {th th' : Thread}

theorem moves (h : Recorded th) (hinv : Inv th.held th.io) (hs : th.slotted)
    (hm : Moves th label th') : Recorded th' := by
  have hhome : ∀ o s, home th.chains o = some s → home th'.chains o = some s := by
    intro o s ho
    cases Thread.io_moves hinv hm with
    | later new hl hchains => rw [hchains]; exact ho
    | made a hmakes hchains => rw [hchains]; exact home_append ho _
  constructor
  · cases Thread.io_moves hinv hm with
    | later new hl hchains => rw [hchains, h.made, Io.nextOp, Io.nextOp, hl.places]
    | made a hmakes hchains =>
      rw [hchains, Io.nextOp, hmakes.places, List.length_append, List.length_append, h.made]
      rfl
  · intro s list hl r hr
    rcases Thread.lists_moves hs hm hl hr with ⟨list₀, hl₀, hr₀⟩ | ⟨hop, hhead, hchains⟩
    · exact hhome _ _ (h.lists s list₀ hl₀ r hr₀)
    · rw [hchains, hop, home, ← h.made, List.getElem?_concat_length]
      exact hhead
  · intro o s hmem
    cases Thread.io_moves hinv hm with
    | later new hl hchains hnew =>
      rw [hl.requests] at hmem
      rcases List.mem_append.mp hmem with hmem | hmem
      · obtain ⟨l, b, list, r, hframe, hlist, hr, rfl⟩ := hnew o s hmem
        rw [hs.gathered s l b hframe] at hlist
        exact hhome _ _ (h.lists s list hlist r hr)
      · exact hhome _ _ (h.exits o s hmem)
    | made a hmakes hchains =>
      rw [hmakes.requests] at hmem
      exact hhome _ _ (h.exits o s hmem)

end Recorded

/-! ## Scopes are nested -/

theorem slotted_of_reaches (h : threads.Reaches allowed th) : th.slotted := by
  induction h with
  | start => exact Slotted.new
  | next _ _ hnext ih => exact Thread.slotted_moves ih (Thread.next_moves hnext)

theorem recorded_of_reaches (h : threads.Reaches allowed th) : Recorded th := by
  induction h with
  | start => exact ⟨rfl, fun _ _ hl => (by cases hl), fun _ _ hmem => (by cases hmem)⟩
  | next hreach _ hnext ih =>
    exact ih.moves (inv_of_reaches hreach) (slotted_of_reaches hreach) (Thread.next_moves hnext)

namespace Thread

/-- What a scope retains. -/
def entriesOf (th : Thread) (s : Nat) : IoScopeCompletions := (th.lists[s]?).getD ⟨[], []⟩

/-- The operations in the list of a scope. -/
def listOf (th : Thread) (s : Nat) : List Ref := (th.entriesOf s).completions

theorem mem_listOf {th : Thread} :
    r ∈ th.listOf s ↔ ∃ list, th.lists[s]? = some list ∧ r ∈ list.completions := by
  unfold listOf entriesOf
  cases th.lists[s]? with
  | none | some => simp

/-- A scope that is being polled has a list. -/
theorem polled_lt {th : Thread} (hs : th.slotted) (h : s ∈ Ring.polled th.frames) :
    s < th.lists.length := by
  obtain ⟨frame, hframe, hpolled⟩ := List.mem_filterMap.mp h
  have hscope : frame.scope = some s := by
    cases frame with
    | polling => exact hpolled
    | _ => cases hpolled
  obtain ⟨c, hc⟩ := hs.inUse s (List.mem_filterMap.mpr ⟨frame, hframe, hscope⟩)
  rw [hs.length]
  exact (List.getElem?_eq_some_iff.mp hc).1

/-- A new operation is recorded in the list of the innermost scope only. -/
theorem listOf_registerIo {th : Thread} (hs : th.slotted) (hc : th.current = some t) (s : Nat) :
    (th.registerIo t r).listOf s =
      th.listOf s ++ if (Ring.polled th.frames).head? = some s then [r] else [] := by
  have hslot : th.slots t = (Ring.polled th.frames).head? := by
    unfold slotted at hs
    rw [hc] at hs
    exact hs.slot_current
  unfold registerIo
  split
  · next hnone => simp [← hslot, hnone]
  · next l hl =>
    rw [← hslot, hl]
    have hmem : l ∈ Ring.polled th.frames := List.mem_of_mem_head? (hslot.symm.trans hl)
    have hlt := polled_lt hs hmem
    obtain ⟨list, hlist⟩ : ∃ list, th.lists[l]? = some list := ⟨_, List.getElem?_eq_getElem hlt⟩
    rw [hlist]
    by_cases heq : l = s
    · subst heq
      simp only [listOf, entriesOf, setList, List.getElem?_set_self hlt, hlist, Option.getD_some,
        if_true]
    · simp [listOf, entriesOf, setList, heq]

end Thread

/-- The lists of the scopes follow the stack: an operation is recorded in the
list of the innermost scope that is being polled and nowhere else, the slot
has the list that the stack says, whenever the stack is the same, and an exit
asks only for the cancellation of what was recorded in its own list. -/
structure ScopesNested (th : Thread) : Prop where
  recorded : ∀ label th', threads.next th label = some th' →
    (label.makes th.io.nextOp).isSome = true → ∃ a, ∀ s, th'.listOf s =
      th.listOf s ++ if (polled th.frames).head? = some s then [⟨a, th.io.nextOp⟩] else []
  lists : ∀ s r, r ∈ th.listOf s → home th.chains r.op = some s
  slot : ∀ t, th.slots t = if th.current = some t then (polled th.frames).head? else none
  saved : Saved th.frames
  restored : ∀ th', threads.Reaches (fun _ _ => True) th' → th'.current = th.current →
    th'.frames = th.frames → th'.slots = th.slots
  exits : ∀ o s, (o, .exit s) ∈ th.io.requests → home th.chains o = some s

/-- **Scopes**: whatever is polled, completed, dropped or panics. -/
theorem scopes_nested {th : Thread} (h : threads.Reaches (fun _ _ => True) th) :
    ScopesNested th := by
  have hs := slotted_of_reaches h
  have hrec := recorded_of_reaches h
  constructor
  · intro label th' hnext hmakes
    cases Thread.next_moves hnext with
    | faulted hfree hnew =>
      exact (Thread.newCompletion_ne_none (inv_of_reaches h) hfree hnew).elim
    | made hc hlabel hfree hnew => exact ⟨_, Thread.listOf_registerIo (by exact hs) hc⟩
    | _ => cases hmakes
  · intro s r hr
    obtain ⟨list, hlist, hr⟩ := Thread.mem_listOf.mp hr
    exact hrec.lists s list hlist r hr
  · exact hs.slot
  · exact hs.saved
  · intro th' h' hcurrent hframes
    funext t
    rw [hs.slot t, (slotted_of_reaches h').slot t, hcurrent, hframes]
  · exact hrec.exits

/-- Two scopes, one inside the other: the outer one ends with both its own
operation and the inner scope pending, and only its own is canceled. -/
theorem scopes_nested_two : ∃ th : Thread, threads.Reaches (fun _ _ => True) th ∧
    th.io.requests = [(0, .exit 0)] ∧ th.listOf 1 = [⟨8, 1⟩] ∧ ScopesNested th := by
  have hrun : threads.run threads.start
      [.enter 0, .ioScope, .scopePoll 0, .create ⟨false, false, .box, false⟩ 7, .poll 0 false,
        .ioScope, .scopePoll 1, .create ⟨false, false, .box, false⟩ 8, .poll 0 false,
        .scopePending, .scopeReady, .gather] = some _ := rfl
  exact ⟨_, System.reaches_run hrun, rfl, rfl, scopes_nested (System.reaches_run hrun)⟩

/-- A future that was made outside of all scopes moves into the body of a
scope, and the scope is dropped: its drop cancels the operation, which is in
no list. -/
theorem exists_foreign_cancel : ∃ th th' : Thread, threads.Reaches (fun _ _ => True) th ∧
    .unwinding 0 ∈ th.frames ∧ threads.next th (.drop 0) = some th' ∧
      th'.io.requests = (0, .future) :: th.io.requests ∧ th.chains = [[]] := by
  have hrun : threads.run threads.start
      [.enter 0, .create ⟨false, false, .none, false⟩ 7, .ioScope, .scopePoll 0, .poll 0 false,
        .scopePending, .scopeDrop 0] = some _ := rfl
  exact ⟨_, _, System.reaches_run hrun, List.mem_cons_self .., rfl, rfl, rfl⟩

end Kimojio.Ring
