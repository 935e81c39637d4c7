import Kimojio.Ring.Descriptors
import Kimojio.Ring.ScopeExit
import Mathlib.Data.List.Perm.Subperm

/-!
# Kimojio.Ring.ScopeBound

How many entries an open scope retains.

An operation is recorded when it is made, and a wait at every poll that leaves
it pending; nothing is taken out of the list before the scope is left or its
operations are canceled. So a wait that is polled again is recorded again, and
an operation that completes and a wait that ends stay recorded
(`exists_not_bounded`). The list is no longer than what the scope waits for as
long as no step completes an operation or touches a wait that is in it
(`scope_bounded`).
-/

namespace Kimojio.Ring

/-- The scope with this list is being left. -/
def Frame.leaves (s : Nat) : Frame → Bool
  | .exiting _ l _ => l == s
  | .unwinding s' => s' == s
  | _ => false

theorem Frame.ne_of_leaves (h : (Frame.exiting s' l b).leaves s = false) : l ≠ s := by
  simpa [leaves] using h

/-- The wait that a step polls or drops. -/
def Label.ofWait : Label → Option Nat
  | .pollWait w _ _ | .dropWait w => some w
  | _ => none

namespace Thread

/-- How many entries a scope retains. -/
def retained (th : Thread) (s : Nat) : Nat :=
  (th.entriesOf s).completions.length + (th.entriesOf s).waits.length

/-- The operations of a scope that have not completed. -/
def openIo (th : Thread) (s : Nat) : List Nat :=
  (List.range th.io.nextOp).filter fun o => home th.chains o == some s && th.io.unfinished o

def isPending (th : Thread) (w : Nat) : Bool := (th.waits[w]?).any Wait.isPending

/-- The waits of a scope that are pending. -/
def pendingWaits (th : Thread) (s : Nat) : List Nat :=
  (List.range th.waits.length).filter fun w => (th.entriesOf s).waits.contains w && th.isPending w

/-- The scope stays open. -/
def staysOpen (th : Thread) (s : Nat) : Label → Bool
  | .scopeReady =>
    match th.frames with
    | .polling s' _ :: _ => s' != s
    | _ => true
  | .scopeDrop s' => s' != s
  | _ => true

/-- No operation that is recorded is completed, and no wait that is recorded
is polled or dropped. -/
def finishesNone (th : Thread) (s : Nat) (label : Label) : Bool :=
  ((th.completes label).all fun r => !(th.entriesOf s).completions.contains r) &&
    label.ofWait.all fun w => !(th.entriesOf s).waits.contains w

end Thread

/-- What a step does to the list of an open scope. -/
inductive Records (th : Thread) (label : Label) (th' : Thread) (list : IoScopeCompletions) :
    IoScopeCompletions → Prop where
  | keep : Records th label th' list list
  | clearIo : Records th label th' list { list with completions := [] }
  | clearWaits : Records th label th' list { list with waits := [] }
  | io (a : Nat) (hnew : th'.io.unfinished th.io.nextOp = true) : Records th label th' list
        { list with completions := list.completions ++ [⟨a, th.io.nextOp⟩] }
  | wait (w : Nat) (hlabel : label.ofWait = some w) (hw : th'.isPending w = true) :
      Records th label th' list { list with waits := list.waits ++ [w] }

theorem Records.mem (h : Records th label th' list list') (hr : r ∈ list'.completions) :
    r ∈ list.completions ∨ r.op = th.io.nextOp := by
  cases h with
  | clearIo => cases hr
  | io a => grind
  | keep | clearWaits | wait => exact .inl hr

theorem Io.unfinished_newCompletion {io io' : Io} (h : io.newCompletion fresh c = (io', some a))
    (hop : c.op = io.nextOp) (hstate : c.state.isFinished = false) :
    io'.unfinished io.nextOp = true := by
  have hplaces := (newCompletion_makes h hop).places
  have hget : io'.heap.get a = some c := by
    unfold newCompletion at h
    split at h
    · split at h <;> cases h
      next hcount =>
        rw [RcHeap.get_modify, if_pos rfl, RcHeap.get]
        cases hcell : io.heap.cell a with
        | none => simp [RcHeap.strongCount, hcell] at hcount
        | some cell => rfl
    · cases h
      simp [RcHeap.get_alloc]
  refine unfinished_iff.mpr ⟨c, ?_, hstate⟩
  simp [completionOf, hplaces, nextOp, hget, hop]

namespace Thread

variable {th th' : Thread} {s : Nat}

theorem isPending_cancelWaits (cause : Option Nat) (ws : List Nat) (waits : List Wait) (w : Nat) :
    ((cancelWaits cause ws waits)[w]?).any Wait.isPending = (waits[w]?).any Wait.isPending := by
  induction ws generalizing waits with
  | nil => rfl
  | cons v ws ih =>
    refine (ih _).trans ?_
    rw [List.getElem?_modify]
    cases waits[w]? with
    | none => rfl
    | some wait =>
      show (if v = w then wait.cancel cause else wait).isPending = _
      split <;> rfl

theorem records_setList {th₁ : Thread} (hl : th₁.lists[l]? = some list)
    (hkeep : th₁.entriesOf s = th.entriesOf s)
    (hrecords : l = s → Records th label th' list list') :
    Records th label th' (th.entriesOf s) ((th₁.setList l list').entriesOf s) := by
  rw [entriesOf_setList hl, ← hkeep]
  split
  · next heq =>
    subst heq
    rw [entriesOf_eq hl]
    exact hrecords rfl
  · exact .keep

/-- A scope is left with the list that is in the slot. -/
theorem leaves_cancelAndWait (h : ∀ f ∈ th.frames, f.leaves s = false)
    (hslot : th.slots t = some l) (hl : l ≠ s) (s' : Nat) (outer : Option Nat) :
    ∀ f ∈ (th.cancelAndWait t s' outer).frames, f.leaves s = false := by
  simp only [cancelAndWait, hslot]
  exact List.forall_mem_cons.mpr ⟨by simpa [Frame.leaves] using hl, h⟩

theorem entries_moves (hs : th.slotted) (hm : Moves th label th')
    (hin : ∀ f ∈ th.frames, f.leaves s = false) (hstays : th.staysOpen s label = true) :
    (∀ f ∈ th'.frames, f.leaves s = false) ∧
      Records th label th' (th.entriesOf s) (th'.entriesOf s) := by
  have hpop {f : Frame} {frames : List Frame} (hf : th.frames = f :: frames) :
      f.leaves s = false ∧ ∀ f ∈ frames, f.leaves s = false :=
    List.forall_mem_cons.mp (hf ▸ hin)
  have hpush {f : Frame} (hf : f.leaves s = false) : ∀ g ∈ f :: th.frames, g.leaves s = false :=
    List.forall_mem_cons.mpr ⟨hf, hin⟩
  have hguard {l s' : Nat} {frames : List Frame} (hf : th.frames = .unwinding s' :: frames)
      (hg : (th.scopes[s']?).bind IoScopeFuture.completions = some l) : l ≠ s := by
    rw [guard_list hs hf hg]
    simpa [Frame.leaves] using (hpop hf).1
  cases hm with
  | @made _ _ _ io a _ request hc hlabel hfree hnew =>
    refine ⟨by rw [(registerIo_same ..).2]; exact hin, ?_⟩
    unfold registerIo
    split
    · exact .keep
    · split
      · exact .keep
      · next hl =>
        refine records_setList hl rfl fun _ => .io a ?_
        have hmade := Io.unfinished_newCompletion hnew rfl rfl
        simpa [Io.unfinished, Io.completionOf, setList, withFuture, Io.clone,
          RcHeap.get_clone] using hmade
  | dropWaits | scopePoll => exact ⟨hpush rfl, .keep⟩
  | dropped hf | scopePending _ hf | guardTaken hf | guardEmpty hf => exact ⟨(hpop hf).2, .keep⟩
  | ioScope =>
    have hlists : th.ioScope.entriesOf s = th.entriesOf s := by
      simp only [ioScope, entriesOf, List.getElem?_append, List.getElem?_singleton]
      grind
    exact ⟨hin, hlists ▸ .keep⟩
  | @scopeReady _ _ s' _ hc hf =>
    have hne : s' ≠ s := by simpa [staysOpen, hf] using hstays
    have hslot := slot_of_polling hs hc hf
    refine ⟨leaves_cancelAndWait (hpop hf).2 (by exact hslot) hne _ _, ?_⟩
    rw [entriesOf_cancelAndWait]
    exact .keep
  | gather hf hl =>
    -- the lists of the scopes that are being left are others
    have hne := Frame.ne_of_leaves (hpop hf).1
    refine ⟨List.forall_mem_cons.mpr ⟨by simpa [Frame.leaves] using hne, (hpop hf).2⟩, ?_⟩
    exact records_setList hl rfl fun heq => absurd heq hne
  | settling hf hl =>
    exact ⟨hin, records_setList hl rfl fun heq => absurd heq (Frame.ne_of_leaves (hpop hf).1)⟩
  | settled hf hl =>
    refine ⟨(hpop hf).2, ?_⟩
    exact records_setList hl rfl fun heq => absurd heq (Frame.ne_of_leaves (hpop hf).1)
  | scopeDrop => exact ⟨hpush (by simpa [Frame.leaves, staysOpen] using hstays), .keep⟩
  | guardAborted hf hg hl =>
    exact ⟨(hpop hf).2, records_setList hl rfl fun heq => absurd heq (hguard hf hg)⟩
  | guardExit hf hg hl hc =>
    refine ⟨leaves_cancelAndWait (hpop hf).2 (if_pos rfl) (hguard hf hg) _ _, ?_⟩
    rw [entriesOf_cancelAndWait]
    exact .keep
  | ioScopeCancel hc hslot hl => exact ⟨hpush rfl, records_setList hl rfl fun _ => .clearIo⟩
  | ioScopeCanceled hf hl => exact ⟨(hpop hf).2, records_setList hl rfl fun _ => .clearWaits⟩
  | @waitPending w wait t hw ho hc ht =>
    refine ⟨by rw [(registerWait_same ..).2]; exact hin, ?_⟩
    unfold registerWait
    split
    · exact .keep
    · split
      · exact .keep
      · next hl =>
        have hlt := (List.getElem?_eq_some_iff.mp hw).1
        exact records_setList hl rfl fun _ =>
          .wait w rfl (by simpa [isPending, setList, hlt, Wait.isPending, Wait.polledIn] using ho)
  | _ => exact ⟨hin, .keep⟩

/-- Only its own poll or drop ends a wait. -/
theorem isPending_moves (hm : Moves th label th') (hw : th.isPending w = true)
    (hlabel : label.ofWait ≠ some w) : th'.isPending w = true := by
  unfold isPending at *
  cases hm with
  | scopeReady | guardExit =>
    unfold cancelAndWait
    dsimp only
    split <;> exact hw
  | made | gather | ioScopeCanceled | newWait | waitCanceled | waitPolled | waitDropped
  | waitPending =>
    grind [registerIo, registerWait, setList, withFuture, isPending_cancelWaits, Label.ofWait]
  | _ => exact hw

end Thread

/-! ## What stays unfinished -/

namespace Thread

variable {th th' : Thread} {s : Nat}

/-- An operation whose reference is kept ends only where the step ends one. -/
theorem unfinished_kept (hinv : Inv th.held th.io) (hm : Moves th label th') (hr : r ∈ th.held)
    (hr' : r ∈ th'.held) (hnot : ¬ th.ends label r.addr) (hun : th.io.unfinished r.op = true) :
    th'.io.unfinished r.op = true := by
  obtain ⟨c', _, _, hc'⟩ := (inv_moves hinv hm).completionOf hr'
  obtain ⟨c, _, hplace, hc⟩ := hinv.completionOf hr
  have hstate : c.state.isFinished = false := by simpa [Io.unfinished, hc] using hun
  refine Io.unfinished_iff.mpr ⟨c', hc', ?_⟩
  cases io_moves hinv hm with
  | later new hl =>
    obtain ⟨a, c₀, ha, hc₀, hlater⟩ := hl.completionOf hc'
    cases hc.symm.trans hc₀
    cases hplace.symm.trans ha
    rw [Bool.eq_false_iff]
    intro hdone
    rcases hlater.ended hdone with hdone | hends
    · rw [hstate] at hdone
      cases hdone
    · exact hnot hends
  | made a hmakes =>
    cases hc.symm.trans (hmakes.older _ c' hc' (lt_of_unfinished hun))
    exact hstate

/-- A step that ends what is recorded in an open scope completes it, or takes
it out of the list. -/
theorem not_ends (hinv : Inv th.held th.io) (hrec : Recorded th) (hm : Moves th label th')
    (hin : ∀ f ∈ th.frames, f.leaves s = false) (hr : r ∈ (th.entriesOf s).completions)
    (hr' : r ∈ (th'.entriesOf s).completions) (hnot : th.completes label ≠ some r) :
    ¬ th.ends label r.addr := by
  obtain ⟨list, hlist, hr⟩ := mem_listOf.mp hr
  rintro ⟨q, haddr, hends⟩
  -- an address has one operation
  have hsame (hq : q ∈ th.held ++ th.io.inFlight) : q = r := by
    obtain ⟨c, hc, hop⟩ := hinv.exists_get (mem_held_of_list hlist hr)
    have hown := hinv.owns.own q hq c (haddr ▸ hc)
    cases q
    cases r
    simp_all
  rcases hends with hcompletes | ⟨l, list', hcanceled, hl, hq⟩
  · refine hnot (hcompletes.trans (congrArg some (hsame ?_)))
    unfold completes at hcompletes
    split at hcompletes
    · obtain ⟨cqe, hcqe, hdata⟩ := Option.bind_eq_some_iff.mp hcompletes
      exact List.mem_append_right _ (Io.mem_inFlight_cq (List.mem_of_head? hcqe) hdata)
    · obtain ⟨f, hf, rfl⟩ := Option.map_eq_some_iff.mp (Option.filter_eq_some_iff.mp hcompletes).1
      exact List.mem_append_left _ (mem_held hf)
    · obtain ⟨f, hf, rfl⟩ := Option.map_eq_some_iff.mp (Option.filter_eq_some_iff.mp hcompletes).1
      exact List.mem_append_left _ (mem_held hf)
    · cases hcompletes
  · -- the operations of another scope are others
    cases hsame (List.mem_append_left _ (mem_held_of_list hl hq))
    cases Option.some.inj ((hrec.lists l list' hl r hq).symm.trans (hrec.lists s list hlist r hr))
    cases hm with
    | faulted hfree hnew => exact newCompletion_ne_none hinv hfree hnew
    | @made _ _ _ _ _ label _ _ hlabel =>
      cases label with
      | create | close => cases hcanceled
      | _ => cases hlabel
    | gather hf =>
      simp only [canceledList, hf, Option.some.injEq] at hcanceled
      exact Frame.ne_of_leaves (hin _ (hf ▸ List.mem_cons_self ..)) hcanceled
    | ioScopeCancel hc hslot hl =>
      simp only [canceledList, hc, Option.bind_some, hslot, Option.some.injEq] at hcanceled
      rw [entriesOf_setList (by exact hl), if_pos hcanceled] at hr'
      cases hr'
    | _ => cases hcanceled

end Thread

/-- Every entry is for something that is awaited, and no two are for the same. -/
structure Fits (th : Thread) (list : IoScopeCompletions) : Prop where
  io : ∀ r ∈ list.completions, th.io.unfinished r.op = true
  ioOnce : (list.completions.map Ref.op).Nodup
  waits : ∀ w ∈ list.waits, th.isPending w = true
  waitsOnce : list.waits.Nodup

variable {th th' : Thread} {s : Nat}

theorem Fits.records (h : Fits th list) (hr : Records th label th' list list')
    (hio : ∀ r ∈ list'.completions, th.io.unfinished r.op = true → th'.io.unfinished r.op = true)
    (hwaits : ∀ w ∈ list.waits, th'.isPending w = true)
    (hpoll : ∀ w, label.ofWait = some w → w ∉ list.waits) : Fits th' list' := by
  have hkept (r : Ref) (hr : r ∈ list.completions) (hr' : r ∈ list'.completions) :
      th'.io.unfinished r.op = true := hio r hr' (h.io r hr)
  cases hr with
  | keep => exact ⟨fun r hr => hkept r hr hr, h.ioOnce, hwaits, h.waitsOnce⟩
  | clearIo => exact ⟨by simp, List.nodup_nil, hwaits, h.waitsOnce⟩
  | clearWaits => exact ⟨fun r hr => hkept r hr hr, h.ioOnce, by simp, List.nodup_nil⟩
  | io a hnew =>
    refine ⟨fun r hr => ?_, ?_, hwaits, h.waitsOnce⟩
    · rcases List.mem_append.mp hr with hold | hold
      · exact hkept r hold hr
      · cases List.mem_singleton.mp hold
        exact hnew
    · -- a new operation has a larger number than those that are recorded
      have hlt := fun r hr => Nat.ne_of_lt (Thread.lt_of_unfinished (h.io r hr))
      simpa [List.nodup_append, h.ioOnce] using hlt
  | wait w hlabel hw =>
    refine ⟨fun r hr => hkept r hr hr, h.ioOnce, fun v hv => ?_, ?_⟩
    · rcases List.mem_append.mp hv with hv | hv
      · exact hwaits v hv
      · exact List.mem_singleton.mp hv ▸ hw
    · have hnew (v : Nat) (hv : v ∈ list.waits) : v ≠ w := fun heq => hpoll w hlabel (heq ▸ hv)
      simpa [List.nodup_append, h.waitsOnce] using hnew

/-- What is awaited is at least what is recorded. -/
theorem Fits.retained_le (h : Fits th (th.entriesOf s)) (hrec : Recorded th) :
    th.retained s ≤ (th.openIo s).length + (th.pendingWaits s).length := by
  refine Nat.add_le_add ?_ ?_
  · rw [← List.length_map Ref.op]
    refine (List.subperm_of_subset h.ioOnce fun o ho => ?_).length_le
    obtain ⟨r, hr, rfl⟩ := List.mem_map.mp ho
    have hhome : home th.chains r.op = some s := by
      obtain ⟨list, hl, hr⟩ := Thread.mem_listOf.mp hr
      exact hrec.lists s list hl r hr
    simp [Thread.openIo, Thread.lt_of_unfinished (h.io r hr), hhome, h.io r hr]
  · refine (List.subperm_of_subset h.waitsOnce fun w hw => ?_).length_le
    have hlt : w < th.waits.length := by
      refine Nat.lt_of_not_le fun hle => ?_
      have hpending := h.waits w hw
      simp [Thread.isPending, List.getElem?_eq_none hle] at hpending
    simp [Thread.pendingWaits, hlt, hw, h.waits w hw]

/-- **Retained entries**: in every run in which the scope stays open, no step
completes an operation that is recorded in it, and no wait that is recorded in
it is polled again or dropped. -/
theorem scope_bounded (s : Nat) (th : Thread) (h : threads.Reaches
      (fun th label => (th.staysOpen s label && th.finishesNone s label) = true) th) :
    th.retained s ≤ (th.openIo s).length + (th.pendingWaits s).length := by
  suffices htight : (∀ f ∈ th.frames, f.leaves s = false) ∧ Fits th (th.entriesOf s) from
    htight.2.retained_le (recorded_of_reaches h)
  induction h with
  | start => exact ⟨nofun, nofun, List.nodup_nil, nofun, List.nodup_nil⟩
  | @next th label th' hreach hallowed hnext ih =>
    have hm := Thread.next_moves hnext
    simp only [Bool.and_eq_true, Thread.finishesNone] at hallowed
    obtain ⟨hstays, hio, hpoll⟩ := hallowed
    obtain ⟨hin, hrecords⟩ := Thread.entries_moves (slotted_of_reaches hreach) hm ih.1 hstays
    have hpoll' (w : Nat) (hw : label.ofWait = some w) : w ∉ (th.entriesOf s).waits := by
      simpa [hw] using hpoll
    refine ⟨hin, ih.2.records hrecords (fun r hr hun => ?_) (fun w hw => ?_) hpoll'⟩
    · -- a new operation is not awaited before the step
      rcases hrecords.mem hr with hr₀ | hop
      · have hnot : th.completes label ≠ some r := fun heq => by simp [heq, hr₀] at hio
        have hends := Thread.not_ends (inv_of_reaches hreach) (recorded_of_reaches hreach) hm
          ih.1 hr₀ hr hnot
        obtain ⟨_, hl₀, hmem₀⟩ := Thread.mem_listOf.mp hr₀
        obtain ⟨_, hl, hmem⟩ := Thread.mem_listOf.mp hr
        exact Thread.unfinished_kept (inv_of_reaches hreach) hm
          (Thread.mem_held_of_list hl₀ hmem₀) (Thread.mem_held_of_list hl hmem) hends hun
      · exact absurd (hop ▸ Thread.lt_of_unfinished hun) (Nat.lt_irrefl _)
    · exact Thread.isPending_moves hm (ih.2.waits w hw) fun hlabel => hpoll' w hlabel hw

/-- An operation and a wait that the scope waits for. -/
theorem scope_bounded_two : ∃ th : Thread,
    threads.Reaches (fun th label => (th.staysOpen 0 label && th.finishesNone 0 label) = true) th ∧
      th.retained 0 = 2 ∧ th.retained 0 ≤ (th.openIo 0).length + (th.pendingWaits 0).length := by
  have hrun : (threads.restrict fun th label =>
      th.staysOpen 0 label && th.finishesNone 0 label).run threads.start
      [.enter 0, .ioScope, .scopePoll 0, .create ⟨false, false, .box, false⟩ 7, .poll 0 false,
        .newWait, .pollWait 0 false false] = some _ := rfl
  have hreach := System.Reaches.start.run hrun
  exact ⟨_, hreach, rfl, scope_bounded 0 _ hreach⟩

/-- An operation completes in a scope, and a wait is polled twice in it: there
are three entries, and one wait is pending. -/
theorem exists_not_bounded : ∃ th : Thread,
    threads.Reaches (fun th label => th.staysOpen 0 label = true) th ∧
      th.retained 0 = 3 ∧ th.openIo 0 = [] ∧ th.pendingWaits 0 = [0] := by
  have hrun : (threads.restrict fun th label => th.staysOpen 0 label).run threads.start
      [.enter 0, .ioScope, .scopePoll 0, .create ⟨false, false, .box, false⟩ 7, .poll 0 false,
        .take false, .post false 0 (.ok 1), .process false, .newWait, .pollWait 0 false false,
        .pollWait 0 false false] = some _ := rfl
  exact ⟨_, System.Reaches.start.run hrun, rfl, rfl, rfl⟩

end Kimojio.Ring
