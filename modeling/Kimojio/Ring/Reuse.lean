import Kimojio.Table
import Kimojio.Ring.Moves
import Kimojio.Ring.IoInvariant

/-!
# Kimojio.Ring.Reuse

The pool of completions is safe: in every run of a thread, `Inv` holds of the
references that its futures and scopes hold.
-/

namespace Kimojio.Ring

/-! ## Whole lists of references -/

theorem Io.moveLast_perm (rest : List Ref) : (moveLast rest).Perm rest := by
  unfold moveLast
  split
  · next h => rw [List.getLast?_eq_none_iff.mp h]
  · next r h =>
    obtain ⟨front, rfl⟩ := List.getLast?_eq_some_iff.mp h
    rw [List.dropLast_concat]
    exact (List.perm_append_singleton r front).symm

/-- What holds of a list of references, in any order, and goes on to hold when
one that is finished is returned, holds of those that are retained. -/
theorem Io.retain_rule {P : Io → List Ref → Prop} {io io' : Io}
    (hperm : ∀ {io l l'}, l.Perm l' → P io l → P io l')
    (hreturn : ∀ {io r l}, io.incomplete r = false → P io (r :: l) →
      P (io.returnCompletion r.addr) l)
    (h : P io rest) (hr : io.retainIncomplete n rest = (io', kept)) : P io' kept := by
  induction n generalizing io rest kept P with
  | zero =>
    cases hr
    exact h
  | succ n ih =>
    cases rest with
    | nil =>
      cases hr
      exact h
    | cons r rest =>
      rw [Io.retainIncomplete] at hr
      split at hr
      · cases hr
        -- the kept reference stays in front of the others
        exact ih (P := fun io l => P io (r :: l)) (fun hp => hperm (hp.cons r))
          (fun hq h => hreturn hq (hperm (.swap ..) h)) h rfl
      · next hfinished =>
        have hrest := hreturn (Bool.eq_false_iff.mpr hfinished) h
        exact ih hperm hreturn (hperm (Io.moveLast_perm rest).symm hrest) hr

namespace Inv

variable {held : List Ref} {io io' : Io}

theorem retainIncomplete (h : Inv (rest ++ held) io)
    (hr : io.retainIncomplete n rest = (io', kept)) : Inv (kept ++ held) io' :=
  Io.retain_rule (P := fun io l => Inv (l ++ held) io) (fun hp h => h.perm (hp.append_right _))
    (fun _ h => h.returnCompletion) h hr

theorem cancelAll (cause : Cause) (h : Inv held io) (hr : ∀ r ∈ refs, r ∈ held) :
    Inv held (io.cancelAll cause refs) := by
  induction refs generalizing io with
  | nil => exact h
  | cons r refs ih =>
    exact ih (h.cancel (hr r (List.mem_cons_self ..)) cause)
      fun q hq => hr q (List.mem_cons_of_mem _ hq)

theorem drain (cause : Cause) (h : Inv (refs ++ held) io) : Inv held (io.drain cause refs) := by
  induction refs generalizing io with
  | nil => exact h
  | cons r refs ih => exact ih (h.cancel (List.mem_cons_self ..) cause).returnCompletion

theorem dropAll (h : Inv (refs ++ held) io) : Inv held (io.dropAll refs) := by
  induction refs generalizing io with
  | nil => exact h
  | cons r refs ih => exact ih h.dropRc

end Inv

namespace Thread

variable {th th' : Thread}

/-! ## What a thread holds -/

/-- The references of one list, and the others. -/
theorem held_setList (h : th.lists[l]? = some list) :
    ∃ rest, th.held.Perm (list.completions ++ rest) ∧
      ∀ list', (th.setList l list').held.Perm (list'.completions ++ rest) := by
  obtain ⟨rest, hall, hset⟩ := exists_perm_flatMap_set h IoScopeCompletions.completions
  let front := th.futures.map RingFuture.handle ++ th.frames.filterMap Frame.handle
  refine ⟨front ++ rest, ?_, fun list' => ?_⟩
  · exact (hall.append_left front).trans (List.perm_append_comm_assoc ..)
  · exact ((hset list').append_left front).trans (List.perm_append_comm_assoc ..)

/-- The reference of one future, and the others. -/
theorem held_eraseIdx (h : th.futures[i]? = some f) :
    th.held.Perm (f.handle :: { th with futures := th.futures.eraseIdx i }.held) :=
  (((perm_cons_eraseIdx h).map RingFuture.handle).append_right _).append_right _

theorem mem_held {i : Nat} (h : th.futures[i]? = some f) : f.handle ∈ th.held :=
  (held_eraseIdx h).mem_iff.mpr (List.mem_cons_self ..)

theorem mem_held_of_list {l : Nat} (hl : th.lists[l]? = some list) (hr : r ∈ list.completions) :
    r ∈ th.held :=
  List.mem_append_right _ (List.mem_flatMap.mpr ⟨list, List.mem_of_getElem? hl, hr⟩)

/-- A frame that waits for no future holds nothing. -/
theorem held_pop {frames : List Frame} (h : th.frames = frame :: frames)
    (hframe : frame.handle = none) : { th with frames }.held = th.held := by
  unfold held
  rw [h, List.filterMap_cons_none hframe]

theorem held_dropping {frames : List Frame} (h : th.frames = .dropping f :: frames) :
    th.held.Perm (f.handle :: { th with frames }.held) := by
  unfold held
  rw [h]
  exact (List.perm_middle.append_right _)

theorem held_cancelAndWait (th : Thread) (t s : Nat) (outer : Option Nat) :
    (th.cancelAndWait t s outer).held = th.held := by
  unfold cancelAndWait
  dsimp only
  split <;> rfl

theorem io_cancelAndWait (th : Thread) (t s : Nat) (outer : Option Nat) :
    (th.cancelAndWait t s outer).io = th.io := by
  unfold cancelAndWait
  dsimp only
  split <;> rfl

/-! ## Every move keeps the account -/

theorem inv_registerIo (h : Inv th.held th.io) (hr : r ∈ th.held) :
    Inv (th.registerIo t r).held (th.registerIo t r).io := by
  unfold registerIo
  split
  · exact h
  · next l hslot =>
    split
    · exact h
    · next list hl =>
      obtain ⟨rest, hall, hset⟩ := @held_setList { th with io := th.io.clone r.addr } l list hl
      refine (h.clone hr).perm (((hall.cons r).trans ?_).trans (hset _).symm)
      show (r :: (list.completions ++ rest)).Perm (list.completions ++ [r] ++ rest)
      rw [List.append_assoc]
      exact List.perm_middle.symm

theorem inv_pop {frames : List Frame} (h : Inv th.held th.io) (hf : th.frames = frame :: frames)
    (hframe : frame.handle = none) : Inv { th with frames }.held { th with frames }.io := by
  rw [held_pop hf hframe]
  exact h

/-- A list of which only what is incomplete is kept. -/
theorem inv_retain {io : Io} (h : Inv th.held th.io) (hl : th.lists[l]? = some list)
    (hr : th.io.retainIncomplete list.completions.length list.completions = (io, kept))
    (waits : List Nat) : Inv (th.setList l ⟨kept, waits⟩).held io := by
  obtain ⟨rest, hall, hset⟩ := held_setList hl
  exact ((h.perm hall).retainIncomplete hr).perm (hset ⟨kept, waits⟩).symm

section

variable {s l : Nat} {list : IoScopeCompletions} {kept : List Ref} {io : Io} {frames : List Frame}

theorem inv_gather (h : Inv th.held th.io) (hf : th.frames = .exiting s l false :: frames)
    (hl : th.lists[l]? = some list)
    (hr : th.io.retainIncomplete list.completions.length list.completions = (io, kept)) :
    Inv ({ th with frames := .exiting s l true :: frames }.setList l ⟨kept, []⟩).held
      (io.cancelAll (.exit s) kept) := by
  have hheld : { th with frames := .exiting s l true :: frames }.held = th.held := by
    unfold held
    rw [hf]
    rfl
  have hinv : Inv { th with frames := .exiting s l true :: frames }.held th.io := hheld ▸ h
  have hkept := inv_retain hinv hl hr []
  refine hkept.cancelAll (.exit s) fun r hr => ?_
  obtain ⟨rest, _, hset⟩ :=
    @held_setList { th with frames := .exiting s l true :: frames } l list hl
  exact (hset ⟨kept, []⟩).mem_iff.mpr (List.mem_append_left _ hr)

theorem inv_dropAll (h : Inv th.held th.io) (hl : th.lists[l]? = some list) :
    Inv (th.setList l ⟨[], []⟩).held (th.io.dropAll list.completions) := by
  obtain ⟨rest, hall, hset⟩ := held_setList hl
  exact (h.perm hall).dropAll.perm (hset ⟨[], []⟩).symm

/-- Waits come and go without the operations. -/
theorem inv_setWaits (h : Inv th.held th.io) (hl : th.lists[l]? = some list)
    (waits : List Nat) : Inv (th.setList l { list with waits }).held th.io := by
  obtain ⟨rest, hall, hset⟩ := held_setList hl
  exact h.perm (hall.trans (hset { list with waits }).symm)

end

theorem inv_registerWait (h : Inv th.held th.io) :
    Inv (th.registerWait t w).held (th.registerWait t w).io := by
  unfold registerWait
  split
  · exact h
  · split
    · exact h
    · next hl => exact inv_setWaits h hl _

theorem inv_newCompletion {request : Request} (h : Inv th.held th.io)
    (hfree : th.io.heap.cell fresh = none) :
    ∃ a, (th.io.newCompletion fresh (request.completion entry th.io.nextOp)).2 = some a ∧
      Inv (⟨a, th.io.nextOp⟩ :: th.held)
        (th.io.newCompletion fresh (request.completion entry th.io.nextOp)).1 :=
  h.newCompletion hfree rfl rfl

theorem newCompletion_ne_none {request : Request} {io' : Io} (h : Inv th.held th.io)
    (hfree : th.io.heap.cell fresh = none) :
    th.io.newCompletion fresh (request.completion entry th.io.nextOp) ≠ (io', none) := by
  intro hnew
  obtain ⟨a, ha, _⟩ := inv_newCompletion h hfree
  rw [hnew] at ha
  cases ha

theorem inv_moves (h : Inv th.held th.io) (hm : Moves th label th') :
    Inv th'.held th'.io := by
  cases hm with
  | enter | leave | scopePoll | scopeDrop | newWait | waitCanceled | waitPolled
  | waitDropped => exact h
  | faulted hfree hnew => exact (newCompletion_ne_none h hfree hnew).elim
  | @made _ _ _ _ _ _ request hc hlabel hfree hnew =>
    obtain ⟨a', ha, hinv⟩ := inv_newCompletion h hfree
    rw [hnew] at ha hinv
    cases ha
    exact inv_registerIo hinv (List.mem_cons_self ..)
  | polled hf hp hr =>
    have hkept := (h.perm (held_eraseIdx hf)).poll hp
    rw [hr] at hkept
    exact hkept.perm (held_eraseIdx hf).symm
  | ready hf hp hr =>
    have hkept := (h.perm (held_eraseIdx hf)).poll hp
    rw [hr] at hkept
    exact hkept
  | canceled hf => exact h.cancel (mem_held hf) _
  | dropAborted hf =>
    exact ((h.cancel (mem_held hf) .future).perm (held_eraseIdx hf)).dropRc
  | @dropWaits i f hf =>
    refine (h.cancel (mem_held hf) .future).perm ((held_eraseIdx hf).trans ?_)
    have hdropping := @held_dropping { th with
      futures := th.futures.eraseIdx i, frames := .dropping f :: th.frames } f th.frames rfl
    exact hdropping.symm
  | dropNow hf =>
    exact ((h.cancel (mem_held hf) .future).perm (held_eraseIdx hf)).abandon
  | dropBorrowed hf => exact (h.perm (held_eraseIdx hf)).dropRc
  | dropped hf => exact (h.perm (held_dropping hf)).abandon
  | ioScope =>
    refine h.perm (List.Perm.of_eq ?_)
    simp [held, ioScope]
  | scopePending hc hf | guardTaken hf | guardEmpty hf =>
    have hpop := inv_pop h hf rfl
    exact hpop
  | scopeReady hc hf | guardExit hf =>
    have hpop := inv_pop h hf rfl
    rw [held_cancelAndWait, io_cancelAndWait]
    exact hpop
  | gather hf hl hr => exact inv_gather h hf hl hr
  | settling hf hl hr => exact inv_retain h hl hr _
  | settled hf hl hr => exact inv_retain (inv_pop h hf rfl) hl hr _
  | guardAborted hf hg hl => exact inv_dropAll (inv_pop h hf rfl) hl
  | ioScopeCancel hc hs hl =>
    obtain ⟨rest, hall, hset⟩ := held_setList hl
    exact ((h.perm hall).drain _).perm (hset ⟨[], _⟩).symm
  | ioScopeCanceled hf hl => exact inv_setWaits (inv_pop h hf rfl) hl []
  | waitPending => exact inv_registerWait h
  | take hio => exact h.take hio
  | post hio => exact h.post hio
  | process hio => exact h.processCompletion hio

end Thread

theorem inv_of_reaches (h : threads.Reaches allowed th) : Inv th.held th.io :=
  h.invariant (P := fun th => Inv th.held th.io) .new fun _ _ _ hinv _ hnext =>
    Thread.inv_moves hinv (Thread.next_moves hnext)

/-! ## Reuse -/

namespace Sqe

/-- The completion of which an entry has the address. -/
def target : Sqe → Ref
  | .op r _ | .linkTimeout r | .asyncCancel r => r

end Sqe

/-- No panic arm is reached, what is pooled is referred to by no future, no
list and no operation in flight, a result is delivered once, and a
cancellation finds the operation that it was made for. -/
structure ReusedSafely (th : Thread) : Prop where
  faults : th.io.faults = []
  futures : ∀ f ∈ th.futures, f.handle.addr ∉ th.io.completionPool
  dropping : ∀ f, .dropping f ∈ th.frames → f.handle.addr ∉ th.io.completionPool
  lists : ∀ list ∈ th.lists, ∀ r ∈ list.completions, r.addr ∉ th.io.completionPool
  entries : ∀ b, ∀ e ∈ (th.io.rings b).sq ++ (th.io.rings b).kernel, ∀ r,
    e.userData = some r → r.addr ∉ th.io.completionPool
  posted : ∀ b, ∀ cqe ∈ (th.io.rings b).cq, ∀ r,
    cqe.userData = some r → r.addr ∉ th.io.completionPool
  delivered : th.io.delivered.Nodup
  named : ∀ p ∈ th.io.named, p.1 = p.2

/-- **Reuse**: whatever the tasks of a thread and the kernel do. -/
theorem reused_safely {th : Thread} (h : threads.Reaches (fun _ _ => True) th) :
    ReusedSafely th := by
  have hinv := inv_of_reaches h
  have hheld : ∀ r ∈ th.held, r.addr ∉ th.io.completionPool :=
    fun r hr => hinv.owns.pooled r (List.mem_append_left _ hr)
  have hflight : ∀ r ∈ th.io.inFlight, r.addr ∉ th.io.completionPool :=
    fun r hr => hinv.owns.pooled r (List.mem_append_right _ hr)
  constructor
  · exact hinv.faults
  · exact fun f hf => hheld _ (List.mem_append_left _ (List.mem_append_left _
      (List.mem_map_of_mem hf)))
  · exact fun f hf => hheld _ (List.mem_append_left _ (List.mem_append_right _
      (List.mem_filterMap.mpr ⟨_, hf, rfl⟩)))
  · exact fun list hlist r hr => hheld r (List.mem_append_right _
      (List.mem_flatMap.mpr ⟨list, hlist, hr⟩))
  · intro b e he r hr
    refine hflight r (Io.mem_inFlight_of_ring (b := b) (List.mem_append_left _ ?_))
    rw [← List.filterMap_append]
    exact List.mem_filterMap.mpr ⟨e, he, hr⟩
  · exact fun b cqe hcqe r hr => hflight r (Io.mem_inFlight_cq hcqe hr)
  · exact hinv.delivered
  · exact hinv.named

/-- A read in a scope completes, is polled, and its completion is pooled when
the scope ends; a second read reuses it. -/
theorem reused_safely_scope : ∃ th : Thread,
    threads.Reaches (fun _ _ => True) th ∧ th.io.places = [7, 7] ∧ th.io.delivered = [0] ∧
      ReusedSafely th := by
  have hrun : threads.run threads.start
      [.enter 0, .ioScope, .scopePoll 0, .create ⟨false, false, .none, false⟩ 7, .poll 0 false,
        .take false, .post false 0 (.ok 1), .process false, .poll 0 false, .scopeReady,
        .gather, .settle, .create ⟨false, false, .none, false⟩ 8, .poll 0 false] = some _ := rfl
  exact ⟨_, System.reaches_run hrun, rfl, rfl, reused_safely (System.reaches_run hrun)⟩

/-- A future with a timeout and a buffer of its own is dropped after the
kernel has posted its completion: then the completion is pooled while the
cancellation that names it is still queued and its timeout is not finished. -/
theorem exists_pooled_target : ∃ th : Thread,
    threads.Reaches (fun _ _ => True) th ∧ ∃ a ∈ th.io.completionPool,
      (∃ e ∈ (th.io.rings false).sq, e.target.addr = a) ∧
        ∃ e ∈ (th.io.rings false).kernel, e.target.addr = a := by
  have hrun : threads.run threads.start
      [.enter 0, .create ⟨true, false, .box, false⟩ 7, .poll 0 false, .take false, .take false,
        .post false 0 (.ok 1), .drop 0, .process false] = some _ := rfl
  exact ⟨_, System.reaches_run hrun, 7, List.mem_singleton_self _,
    ⟨.asyncCancel ⟨7, 0⟩, List.mem_singleton_self _, rfl⟩,
    ⟨.linkTimeout ⟨7, 0⟩, List.mem_singleton_self _, rfl⟩⟩

end Kimojio.Ring
