import Kimojio.Ring.IoScope

/-!
# Kimojio.Ring.Moves

Everything that one step of a thread can do, with what has to hold for it.
Each invariant of a thread is a case analysis on `Moves`.
-/

namespace Kimojio.Ring

/-- The operation that a label makes. -/
def Label.makes (op : Nat) : Label → Option (Entry × Request × Nat)
  | .create request fresh =>
    match request.ownedResources with
    | .closeFd _ => none
    | _ => some (.other, request, fresh)
  | .close fresh => some (.close op, ⟨false, false, .closeFd (some op), false⟩, fresh)
  | _ => none

/-- The completion of a new operation. -/
def Request.completion (request : Request) (entry : Entry) (op : Nat) : Completion :=
  ⟨.idle entry request.timespec, request.ownedResources, request.iopoll, op⟩

/-- A thread with a new future. -/
def Thread.withFuture (th : Thread) (io : Io) (f : RingFuture) : Thread :=
  { th with io, futures := f :: th.futures, chains := th.chains ++ [polled th.frames] }

inductive Moves (th : Thread) : Label → Thread → Prop where
  | enter (hc : th.current = none) (hf : th.frames = []) :
      Moves th (.enter t) { th with current := some t }
  | leave (hf : th.frames = []) : Moves th .leave { th with current := none }
  | faulted {request : Request} (hfree : th.io.heap.cell fresh = none)
      (hnew : th.io.newCompletion fresh (request.completion entry th.io.nextOp) = (io, none)) :
      Moves th label { th with io }
  | made {label : Label} {request : Request} (hc : th.current = some t)
      (hlabel : label.makes th.io.nextOp = some (entry, request, fresh))
      (hfree : th.io.heap.cell fresh = none)
      (hnew : th.io.newCompletion fresh (request.completion entry th.io.nextOp) = (io, some a)) :
      Moves th label
        ((th.withFuture io ⟨⟨a, th.io.nextOp⟩, request.needsDrop⟩).registerIo t ⟨a, th.io.nextOp⟩)
  | polled (hf : th.futures[i]? = some f) (hp : th.io.poll aborted f.handle = (io, result))
      (hr : result.isReady = false) : Moves th (.poll i aborted) { th with io }
  | ready (hf : th.futures[i]? = some f) (hp : th.io.poll aborted f.handle = (io, result))
      (hr : result.isReady = true) :
      Moves th (.poll i aborted) { th with io, futures := th.futures.eraseIdx i }
  | canceled (hf : th.futures[i]? = some f) :
      Moves th (.cancel i) { th with io := th.io.cancel f.handle .future }
  | dropAborted (hf : th.futures[i]? = some f) (hc : th.current = none)
      (hw : Thread.mustWait (th.io.cancel f.handle .future) f = true) :
      Moves th (.drop i) { th with
        io := (th.io.cancel f.handle .future).dropRc f.handle.addr
        futures := th.futures.eraseIdx i }
  | dropWaits (hf : th.futures[i]? = some f)
      (hw : Thread.mustWait (th.io.cancel f.handle .future) f = true) :
      Moves th (.drop i) { th with
        io := th.io.cancel f.handle .future
        futures := th.futures.eraseIdx i
        frames := .dropping f :: th.frames }
  | dropNow (hf : th.futures[i]? = some f)
      (hw : Thread.mustWait (th.io.cancel f.handle .future) f = false) :
      Moves th (.drop i) { th with
        io := (th.io.cancel f.handle .future).abandon f.handle
        futures := th.futures.eraseIdx i }
  | dropBorrowed (hf : th.futures[i]? = some f) :
      Moves th (.dropBorrowed i)
        { th with io := th.io.dropRc f.handle.addr, futures := th.futures.eraseIdx i }
  | dropped (hf : th.frames = .dropping f :: frames) (hw : Thread.mustWait th.io f = false) :
      Moves th .dropped { th with io := th.io.abandon f.handle, frames }
  | ioScope : Moves th .ioScope th.ioScope
  | scopePoll (hc : th.current = some t) (hs : th.scopes[s]? = some scope)
      (hfree : th.isFree s = true) :
      Moves th (.scopePoll s)
        { (th.setSlot t scope.completions).setScope s { scope with completions := none } with
          frames := .polling s (th.slots t) :: th.frames }
  | scopePending (hc : th.current = some t) (hf : th.frames = .polling s outer :: frames) :
      Moves th .scopePending
        { (th.setSlot t outer).setScope s ⟨th.slots t, false⟩ with frames }
  | scopeReady (hc : th.current = some t) (hf : th.frames = .polling s outer :: frames) :
      Moves th .scopeReady ({ th with frames }.cancelAndWait t s outer)
  | gather (hf : th.frames = .exiting s l false :: frames) (hl : th.lists[l]? = some list)
      (hr : th.io.retainIncomplete list.completions.length list.completions = (io, kept)) :
      Moves th .gather ({ th with
        io := io.cancelAll (.exit s) kept
        waits := Thread.cancelWaits (some s) list.waits th.waits
        frames := .exiting s l true :: frames }.setList l ⟨kept, []⟩)
  | settling (hf : th.frames = .exiting s l true :: frames) (hl : th.lists[l]? = some list)
      (hr : th.io.retainIncomplete list.completions.length list.completions = (io, kept)) :
      Moves th .settle ({ th with io }.setList l { list with completions := kept })
  | settled (hf : th.frames = .exiting s l true :: frames) (hl : th.lists[l]? = some list)
      (hr : th.io.retainIncomplete list.completions.length list.completions = (io, [])) :
      Moves th .settle
        ({ ({ th with io }.setList l { list with completions := [] }) with frames }.endScope s)
  | scopeDrop (hfree : th.isFree s = true) :
      Moves th (.scopeDrop s) { th with frames := .unwinding s :: th.frames }
  | guardTaken (hf : th.frames = .unwinding s :: frames)
      (hg : (th.scopes[s]?).bind IoScopeFuture.completions = none) :
      Moves th .scopeGuard ({ th with frames }.endScope s)
  | guardEmpty (hf : th.frames = .unwinding s :: frames)
      (hg : (th.scopes[s]?).bind IoScopeFuture.completions = some l)
      (hl : th.lists[l]? = some list) (he : list = ⟨[], []⟩) :
      Moves th .scopeGuard ({ th with frames }.endScope s)
  | guardAborted (hf : th.frames = .unwinding s :: frames)
      (hg : (th.scopes[s]?).bind IoScopeFuture.completions = some l)
      (hl : th.lists[l]? = some list) (he : list ≠ ⟨[], []⟩) (hc : th.current = none) :
      Moves th .scopeGuard
        (({ th with io := th.io.dropAll list.completions, frames }.setList l ⟨[], []⟩).endScope s)
  | guardExit (hf : th.frames = .unwinding s :: frames)
      (hg : (th.scopes[s]?).bind IoScopeFuture.completions = some l)
      (hl : th.lists[l]? = some list) (hc : th.current = some t) :
      Moves th .scopeGuard (({ th with frames }.setSlot t (some l)).cancelAndWait t s (th.slots t))
  | ioScopeCancel (hc : th.current = some t) (hs : th.slots t = some l)
      (hl : th.lists[l]? = some list) :
      Moves th .ioScopeCancel ({ th with
        io := th.io.drain (.call l) list.completions
        frames := .canceling l :: th.frames }.setList l { list with completions := [] })
  | ioScopeCanceled (hf : th.frames = .canceling l :: frames) (hl : th.lists[l]? = some list) :
      Moves th .ioScopeCanceled ({ th with
        waits := Thread.cancelWaits none list.waits th.waits
        frames }.setList l { list with waits := [] })
  | newWait : Moves th .newWait { th with waits := th.waits ++ [.new] }
  | waitCanceled (hw : th.waits[w]? = some wait) (ho : wait.isPending = true)
      (hc : wait.canceled = true) :
      Moves th (.pollWait w complete aborted) { th with
        waits := th.waits.set w { wait with canceled := false, outcome := some false } }
  | waitPolled (hw : th.waits[w]? = some wait) (ho : wait.isPending = true)
      (hc : wait.canceled = false) (outcome : Option Bool) (hout : outcome ≠ some false) :
      Moves th (.pollWait w complete aborted) { th with
        waits := th.waits.set w { wait.polledIn (polled th.frames) with outcome } }
  | waitPending (hw : th.waits[w]? = some wait) (ho : wait.isPending = true)
      (hc : wait.canceled = false) (ht : th.current = some t) :
      Moves th (.pollWait w false false)
        ({ th with waits := th.waits.set w (wait.polledIn (polled th.frames)) }.registerWait t w)
  | waitDropped (hw : th.waits[w]? = some wait) :
      Moves th (.dropWait w) { th with waits := th.waits.set w { wait with dropped := true } }
  | take (h : th.io.take b = some io) : Moves th (.take b) { th with io }
  | post (h : th.io.post b i result = some io) : Moves th (.post b i result) { th with io }
  | process (h : th.io.processCompletion b = some io) : Moves th (.process b) { th with io }

namespace Thread

variable {th th' : Thread}

theorem withPolled_moves (hlabel : label.makes th.io.nextOp = some (entry, request, fresh))
    (h : th.withPolled entry request fresh = some th') : Moves th label th' := by
  rw [withPolled] at h
  split at h
  · cases h
  · next t ht =>
    obtain ⟨hfree, h⟩ := Option.ite_none_left_eq_some.mp h
    have hcell : th.io.heap.cell fresh = none := by simpa using hfree
    dsimp only at h
    split at h
    · next io hnew =>
      cases h
      exact .faulted hcell hnew
    · next io a hnew =>
      cases h
      exact .made ht hlabel hcell hnew

theorem dropFuture_moves (h : th.dropFuture i = some th') : Moves th (.drop i) th' := by
  rw [dropFuture] at h
  split at h
  · cases h
  · next f hf =>
    dsimp only at h
    split at h
    · next hw =>
      split at h
      · next hc =>
        cases h
        exact .dropAborted hf hc hw
      · cases h
        exact .dropWaits hf hw
    · next hw =>
      cases h
      exact .dropNow hf (by simpa using hw)

theorem scopeGuard_moves (h : th.scopeGuard = some th') : Moves th .scopeGuard th' := by
  rw [scopeGuard] at h
  split at h
  · next s frames hf =>
    dsimp only at h
    split at h
    · next hg =>
      cases h
      exact .guardTaken hf hg
    · next l hg =>
      split at h
      · cases h
      · next list hl =>
        split at h
        · next he =>
          cases h
          obtain ⟨completions, waits⟩ := list
          simp only [Bool.and_eq_true, List.isEmpty_iff] at he
          exact .guardEmpty hf hg hl (by rw [he.1, he.2])
        · next he =>
          split at h
          · next hc =>
            cases h
            refine .guardAborted hf hg hl (fun heq => he ?_) hc
            rw [heq]
            rfl
          · next t hc =>
            cases h
            exact .guardExit hf hg hl hc
  · cases h

theorem pollWait_moves (h : th.pollWait w complete aborted = some th') :
    Moves th (.pollWait w complete aborted) th' := by
  rw [pollWait] at h
  split at h
  · cases h
  · next wait hw =>
    obtain ⟨ho, h⟩ := Option.ite_none_left_eq_some.mp h
    have ho' : wait.isPending = true := by simpa using ho
    have hout : wait.outcome = none := by simp_all [Wait.isPending]
    split at h
    · next hc =>
      cases h
      exact .waitCanceled hw ho' hc
    · next hc =>
      have hc' : wait.canceled = false := by simpa using hc
      split at h
      · cases h
      · next t ht =>
        split at h
        · cases h
          exact .waitPolled hw ho' hc' wait.outcome (by rw [hout]; decide)
        · next ha =>
          split at h
          · cases h
            rw [List.set_set]
            exact .waitPolled hw ho' hc' (some true) (by decide)
          · next hcomplete =>
            cases h
            have ha' : aborted = false := by simpa using ha
            have hcomplete' : complete = false := by simpa using hcomplete
            subst ha' hcomplete'
            exact .waitPending hw ho' hc' ht

/-- **Steps**: every step of a thread is one of its moves. -/
theorem next_moves (h : th.next label = some th') : Moves th label th' := by
  cases label with
  | enter t =>
    obtain ⟨hg, rfl⟩ := Option.ite_some_none_eq_some.mp h
    exact .enter hg.1 hg.2
  | leave =>
    obtain ⟨hf, rfl⟩ := Option.ite_some_none_eq_some.mp h
    exact .leave hf
  | create request fresh =>
    simp only [next] at h
    split at h
    · cases h
    · next hres =>
      obtain ⟨-, h⟩ := Option.ite_none_right_eq_some.mp h
      exact withPolled_moves (by simp only [Label.makes]) h
  | close fresh =>
    obtain ⟨-, h⟩ := Option.ite_none_right_eq_some.mp h
    exact withPolled_moves rfl h
  | poll i aborted =>
    simp only [next, pollFuture] at h
    obtain ⟨-, h⟩ := Option.ite_none_right_eq_some.mp h
    split at h
    · next f t hf hc =>
      split at h
      · next io result hp =>
        cases h
        exact .ready hf hp rfl
      · next io result hnot hp =>
        cases h
        refine .polled hf hp ?_
        cases result with
        | ready value => exact absurd rfl (hnot value)
        | _ => rfl
    · cases h
  | cancel i =>
    simp only [next, cancelFuture] at h
    obtain ⟨-, h⟩ := Option.ite_none_right_eq_some.mp h
    split at h
    · next f hf =>
      cases h
      exact .canceled hf
    · cases h
  | drop i => exact dropFuture_moves h
  | dropBorrowed i =>
    simp only [next, dropBorrowed] at h
    split at h
    · cases h
    · next f hf =>
      cases h
      exact .dropBorrowed hf
  | dropped =>
    simp only [next, droppedFuture] at h
    split at h
    · next f frames hf =>
      obtain ⟨hw, h⟩ := Option.ite_none_left_eq_some.mp h
      cases h
      exact .dropped hf (by simpa using hw)
    · cases h
  | ioScope =>
    obtain ⟨-, rfl⟩ := Option.ite_some_none_eq_some.mp h
    exact .ioScope
  | scopePoll s =>
    simp only [next, scopePoll] at h
    obtain ⟨-, h⟩ := Option.ite_none_right_eq_some.mp h
    split at h
    · next t scope hc hs =>
      obtain ⟨hfree, rfl⟩ := Option.ite_some_none_eq_some.mp h
      exact .scopePoll hc hs hfree
    · cases h
  | scopePending =>
    simp only [next, scopePending] at h
    split at h
    · next t s outer frames hc hf =>
      cases h
      exact .scopePending hc hf
    · cases h
  | scopeReady =>
    simp only [next, scopeReady] at h
    split at h
    · next t s outer frames hc hf =>
      cases h
      exact .scopeReady hc hf
    · cases h
  | gather =>
    simp only [next, gather] at h
    split at h
    · next s l frames hf =>
      split at h
      · cases h
      · next list hl =>
        cases h
        exact .gather hf hl rfl
    · cases h
  | settle =>
    simp only [next, settle] at h
    split at h
    · next s l frames hf =>
      split at h
      · cases h
      · next list hl =>
        split at h
        · next hempty =>
          cases h
          rw [List.isEmpty_iff] at hempty
          rw [hempty]
          exact .settled hf hl (Prod.ext rfl hempty)
        · cases h
          exact .settling hf hl rfl
    · cases h
  | scopeDrop s =>
    obtain ⟨-, h⟩ := Option.ite_none_right_eq_some.mp h
    obtain ⟨hfree, rfl⟩ := Option.ite_some_none_eq_some.mp h
    exact .scopeDrop hfree
  | scopeGuard => exact scopeGuard_moves h
  | ioScopeCancel =>
    simp only [next, ioScopeCancel] at h
    obtain ⟨-, h⟩ := Option.ite_none_right_eq_some.mp h
    split at h
    · cases h
    · next l hslot =>
      obtain ⟨t, hc, hs⟩ := Option.bind_eq_some_iff.mp hslot
      split at h
      · cases h
      · next list hl =>
        cases h
        exact .ioScopeCancel hc hs hl
  | ioScopeCanceled =>
    simp only [next, ioScopeCanceled] at h
    split at h
    · next l frames hf =>
      split at h
      · cases h
      · next list hl =>
        cases h
        exact .ioScopeCanceled hf hl
    · cases h
  | newWait =>
    obtain ⟨-, rfl⟩ := Option.ite_some_none_eq_some.mp h
    exact .newWait
  | pollWait w complete aborted =>
    obtain ⟨-, h⟩ := Option.ite_none_right_eq_some.mp h
    exact pollWait_moves h
  | dropWait w =>
    simp only [next, dropWait] at h
    split at h
    · cases h
    · next wait hw =>
      cases h
      exact .waitDropped hw
  | take b =>
    obtain ⟨io, hio, rfl⟩ := Option.map_eq_some_iff.mp h
    exact .take hio
  | post b i result =>
    obtain ⟨io, hio, rfl⟩ := Option.map_eq_some_iff.mp h
    exact .post hio
  | process b =>
    obtain ⟨io, hio, rfl⟩ := Option.map_eq_some_iff.mp h
    exact .process hio

end Thread

end Kimojio.Ring
