import Kimojio.Ring.ScopeLists
import Mathlib.Data.List.Pairwise

/-!
# Kimojio.Ring.ScopeExit

What is complete when a scope ends.

A scope waits for everything that is in its list. So all operations that
were made while its body was polled are complete when it ends, if the list
still has those that are not when the scope is left. `io_scope_cancel`
takes operations out of the list that may still be on their way, and a scope
inside has a list of its own, so this is a condition on the caller
(`Thread.exitCovered`), who meets it with steps that are `Thread.Orderly`.
-/

namespace Kimojio.Ring

namespace Io

/-- The operation is neither completed nor terminated. -/
def unfinished (io : Io) (o : Nat) : Bool :=
  (io.completionOf o).any fun c => !c.state.isFinished

variable {io io' : Io}

theorem unfinished_iff : io.unfinished o = true ↔
    ∃ c, io.completionOf o = some c ∧ c.state.isFinished = false := by
  unfold unfinished
  cases io.completionOf o with
  | none | some => simp

theorem Later.unfinished {new : List (Nat × Cause)} (h : io.Later ends new io')
    (ho : io'.unfinished o = true) : io.unfinished o = true := by
  obtain ⟨c', hc', hstate⟩ := unfinished_iff.mp ho
  obtain ⟨_, c, _, hc, hl⟩ := h.completionOf hc'
  refine unfinished_iff.mpr ⟨c, hc, ?_⟩
  have hrank := hl.rank
  have hnot : ¬ 3 ≤ c'.state.rank := by
    rw [← CompletionState.isFinished_iff, hstate]
    decide
  rw [Bool.eq_false_iff, ne_eq, CompletionState.isFinished_iff]
  omega

theorem Makes.unfinished (h : io.Makes io' a) (ho : io'.unfinished o = true) (hlt : o < io.nextOp) :
    io.unfinished o = true := by
  obtain ⟨c, hc, hstate⟩ := unfinished_iff.mp ho
  exact unfinished_iff.mpr ⟨c, h.older o c hc hlt, hstate⟩

/-! ## What is retained -/

theorem get_returnCompletion (h : b ≠ a) : (io.returnCompletion a).heap.get b = io.heap.get b := by
  unfold returnCompletion
  split
  · rfl
  · show (io.heap.drop a).get b = _
    rw [RcHeap.get_drop, if_neg fun heq => h heq.1]

theorem mem_retained (h : io.retainIncomplete n rest = (io', kept)) (hr : r ∈ rest)
    (hinc : io.incomplete r = true) : r ∈ kept := by
  refine (retain_rule (P := fun io l => r ∈ l ∧ io.incomplete r = true)
    (fun hp h => ⟨hp.mem_iff.mp h.1, h.2⟩) ?_ ⟨hr, hinc⟩ h).1
  rintro io q l hq ⟨hmem, hinc⟩
  have hne : r.addr ≠ q.addr := by
    intro heq
    rw [incomplete, heq] at hinc
    rw [incomplete, hinc] at hq
    cases hq
  refine ⟨(List.mem_cons.mp hmem).resolve_left fun heq => hne (by rw [heq]), ?_⟩
  rw [incomplete, get_returnCompletion hne]
  exact hinc

end Io

/-- A reference that a thread holds leads to its operation. -/
theorem Inv.completionOf (h : Inv held io) (hr : r ∈ held) :
    ∃ c, io.heap.get r.addr = some c ∧ io.places[r.op]? = some r.addr ∧
      io.completionOf r.op = some c := by
  obtain ⟨c, hc, hop⟩ := h.exists_get hr
  have hplace := h.placed _ c hc
  rw [hop] at hplace
  exact ⟨c, hc, hplace, by simp [Io.completionOf, hplace, hc, hop]⟩

theorem Inv.unfinished_eq (h : Inv held io) (hr : r ∈ held) :
    io.unfinished r.op = io.incomplete r := by
  obtain ⟨c, hc, _, hof⟩ := h.completionOf hr
  simp [Io.unfinished, Io.incomplete, hof, hc]

namespace Thread

/-- The scopes that were being polled when an operation was made. -/
def chainOf (th : Thread) (o : Nat) : List Nat := (th.chains[o]?).getD []

/-- Everything that was made in a scope and is unfinished is in its list. -/
def covers (th : Thread) (s : Nat) : Bool :=
  (List.range th.io.nextOp).all fun o =>
    !(th.chainOf o).contains s || !th.io.unfinished o || (th.listOf s).any (·.op == o)

/-- Everything that was made in a scope is complete. -/
def settledIn (th : Thread) (s : Nat) : Bool :=
  (List.range th.io.nextOp).all fun o =>
    !(th.chainOf o).contains s || !th.io.unfinished o

/-- A scope is left with every unfinished operation in its list, and it is
dropped in a task. -/
def exitCovered (th : Thread) : Label → Bool
  | .scopeReady =>
    match th.frames with
    | .polling s _ :: _ => th.covers s
    | _ => true
  | .scopeGuard =>
    match th.frames with
    | .unwinding s :: _ => if th.current.isSome then th.covers s else th.settledIn s
    | _ => true
  | _ => true

variable {th th' : Thread} {s : Nat}

theorem lt_of_unfinished (h : th.io.unfinished o = true) : o < th.io.nextOp := by
  obtain ⟨c, hc, _⟩ := Io.unfinished_iff.mp h
  obtain ⟨a, ha, _⟩ := Option.bind_eq_some_iff.mp hc
  exact (List.getElem?_eq_some_iff.mp ha).1

/-- What holds of every unfinished operation that was made in a scope. -/
theorem forall_made_iff {p : Nat → Bool} : ((List.range th.io.nextOp).all fun o =>
      !(th.chainOf o).contains s || !th.io.unfinished o || p o) = true ↔
    ∀ o, s ∈ th.chainOf o → th.io.unfinished o = true → p o = true := by
  simp only [List.all_eq_true, List.mem_range, Bool.or_eq_true, Bool.not_eq_true',
    List.contains_eq_mem, decide_eq_false_iff_not]
  constructor
  · intro h o hchain ho
    rcases h o (lt_of_unfinished ho) with (hnot | hdone) | hp
    · exact absurd hchain hnot
    · rw [hdone] at ho
      cases ho
    · exact hp
  · intro h o _
    by_cases hchain : s ∈ th.chainOf o
    · cases ho : th.io.unfinished o with
      | false => exact .inl (.inr rfl)
      | true => exact .inr (h o hchain ho)
    · exact .inl (.inl hchain)

theorem covers_iff : th.covers s = true ↔ ∀ o, s ∈ th.chainOf o → th.io.unfinished o = true →
    ∃ r ∈ th.listOf s, r.op = o :=
  forall_made_iff.trans (by simp only [List.any_eq_true, beq_iff_eq])

theorem settledIn_iff : th.settledIn s = true ↔
    ∀ o, s ∈ th.chainOf o → th.io.unfinished o = false := by
  have hnone := @forall_made_iff th s fun _ => false
  simpa [settledIn] using hnone

/-! ## Scopes that are not being polled -/

theorem frame_unique {frames : List Frame} (h : (frames.filterMap Frame.scope).Nodup)
    (hf : f ∈ frames) (hg : g ∈ frames) (hfs : f.scope = some s) (hgs : g.scope = some s) :
    f = g := by
  have : Std.Symm fun f g : Frame => ∀ s, f.scope = some s → ∀ s', g.scope = some s' → s ≠ s' :=
    ⟨fun _ _ hne s hs s' hs' => (hne s' hs' s hs).symm⟩
  by_contra hne
  exact (List.pairwise_filterMap.mp h).forall hf hg hne s hfs s hgs rfl

theorem polled_frame (h : s ∈ Ring.polled th.frames) : ∃ outer, .polling s outer ∈ th.frames := by
  obtain ⟨frame, hframe, hs⟩ := List.mem_filterMap.mp h
  cases frame with
  | polling s' outer =>
    cases hs
    exact ⟨outer, hframe⟩
  | _ => cases hs

/-- A scope that has another frame is not being polled. -/
theorem not_polled_of_frame (hs : th.slotted) (hframe : frame ∈ th.frames)
    (hscope : frame.scope = some s) (hnot : frame.polled = none) : s ∉ Ring.polled th.frames := by
  intro hmem
  obtain ⟨outer, hpoll⟩ := polled_frame hmem
  cases frame_unique hs.once hframe hpoll hscope rfl
  cases hnot

theorem not_polled_of_ended (hs : th.slotted) (hended : th.scopes[s]? = some ⟨c, true⟩) :
    s ∉ Ring.polled th.frames := by
  intro hmem
  obtain ⟨outer, hpoll⟩ := polled_frame hmem
  obtain ⟨c', hc'⟩ := hs.inUse s (List.mem_filterMap.mpr ⟨_, hpoll, rfl⟩)
  rw [hended] at hc'
  cases hc'

/-- The list in the slot belongs to a scope that is being polled. -/
theorem slot_polled (hs : th.slotted) (hc : th.current = some t) (hslot : th.slots t = some l) :
    l ∈ Ring.polled th.frames := by
  unfold slotted at hs
  rw [hc] at hs
  exact List.mem_of_mem_head? (hs.slot_current.symm.trans hslot)

/-- The list in the guard of a scope that is dropped is its own. -/
theorem guard_list {frames : List Frame} (hs : th.slotted) (hf : th.frames = .unwinding s :: frames)
    (hg : (th.scopes[s]?).bind IoScopeFuture.completions = some l) : l = s := by
  unfold slotted at hs
  rw [hf] at hs
  rw [hs.unwinding_list] at hg
  exact (Option.some.inj hg).symm

/-- What is unfinished after a move was so before it, and was made in the
same scopes. -/
theorem unfinished_moves (hinv : Inv th.held th.io) (hrec : Recorded th) (hm : Moves th label th')
    (hnot : s ∉ Ring.polled th.frames) (hchain : s ∈ th'.chainOf o)
    (ho : th'.io.unfinished o = true) : s ∈ th.chainOf o ∧ th.io.unfinished o = true := by
  cases io_moves hinv hm with
  | later new hl hchains =>
    unfold chainOf at hchain ⊢
    rw [hchains] at hchain
    exact ⟨hchain, hl.unfinished ho⟩
  | made a hmakes hchains =>
    unfold chainOf at hchain ⊢
    rw [hchains, List.getElem?_append] at hchain
    split at hchain
    · next hlt => exact ⟨hchain, hmakes.unfinished ho (hrec.made ▸ hlt)⟩
    · rw [List.getElem?_singleton] at hchain
      split at hchain
      · exact absurd hchain hnot
      · cases hchain

end Thread

namespace Thread

variable {th th' : Thread}

theorem registerIo_same (th : Thread) (t : Nat) (r : Ref) :
    (th.registerIo t r).scopes = th.scopes ∧ (th.registerIo t r).frames = th.frames := by
  unfold registerIo
  split
  · exact ⟨rfl, rfl⟩
  · split <;> exact ⟨rfl, rfl⟩

theorem registerWait_same (th : Thread) (t w : Nat) :
    (th.registerWait t w).scopes = th.scopes ∧ (th.registerWait t w).frames = th.frames := by
  unfold registerWait
  split
  · exact ⟨rfl, rfl⟩
  · split <;> exact ⟨rfl, rfl⟩

theorem mem_listOf_made {io : Io} (hs : th.slotted) (hc : th.current = some t)
    (hq : q ∈ th.listOf s) : q ∈ ((th.withFuture io f).registerIo t r).listOf s := by
  have hw : (th.withFuture io f).slotted := hs
  have hc' : (th.withFuture io f).current = some t := hc
  rw [listOf_registerIo hw hc']
  exact List.mem_append_left _ hq

theorem entriesOf_eq (hl : th.lists[s]? = some list) : th.entriesOf s = list := by
  rw [entriesOf, hl]
  rfl

theorem entriesOf_setList (hl : th.lists[l]? = some list) (list' : IoScopeCompletions) :
    (th.setList l list').entriesOf s = if l = s then list' else th.entriesOf s := by
  have hlt := (List.getElem?_eq_some_iff.mp hl).1
  unfold entriesOf setList
  split <;> simp_all

theorem entriesOf_cancelAndWait (th : Thread) (t s' : Nat) (outer : Option Nat) (s : Nat) :
    (th.cancelAndWait t s' outer).entriesOf s = th.entriesOf s := by
  unfold cancelAndWait
  dsimp only
  split <;> rfl

/-- What is in a list stays, in the changed list when it is kept there. -/
theorem mem_listOf_setList (hl : th.lists[l]? = some list) (hr : r ∈ th.listOf s)
    (hkept : l = s → r ∈ list'.completions) : r ∈ (th.setList l list').listOf s := by
  rw [listOf, entriesOf_setList hl]
  split
  · next heq => exact hkept heq
  · exact hr

/-- Waits come and go without the operations. -/
theorem mem_listOf_setWaits (hl : th.lists[l]? = some list) (hr : r ∈ th.listOf s)
    (waits : List Nat) : r ∈ (th.setList l { list with waits }).listOf s := by
  refine mem_listOf_setList hl hr fun heq => ?_
  subst heq
  rw [listOf, entriesOf_eq hl] at hr
  exact hr

theorem slot_of_polling {frames : List Frame} (hs : th.slotted) (hc : th.current = some t)
    (hf : th.frames = .polling s outer :: frames) : th.slots t = some s := by
  unfold slotted at hs
  rw [hc, hf] at hs
  exact hs.slot_current

/-- The loop of an exit keeps what is unfinished. -/
theorem exit_retains {io : Io} {frames : List Frame} (hinv : Inv th.held th.io)
    (hf : th.frames = .exiting s l b :: frames) (hl : th.lists[l]? = some list)
    (hr : th.io.retainIncomplete list.completions.length list.completions = (io, kept))
    (hs : th.slotted) : l = s ∧ ∀ r ∈ th.listOf s, th.io.unfinished r.op = true → r ∈ kept := by
  have hmem : .exiting s l b ∈ th.frames := by
    rw [hf]
    exact List.mem_cons_self ..
  have heq := hs.gathered s l b hmem
  subst heq
  refine ⟨rfl, fun r hrmem ho => ?_⟩
  have hlist : r ∈ list.completions := by
    rw [listOf, entriesOf_eq hl] at hrmem
    exact hrmem
  exact Io.mem_retained hr hlist (hinv.unfinished_eq (mem_held_of_list hl hlist) ▸ ho)

/-- **What is unfinished stays in its list**, unless `io_scope_cancel` drains
the list or it is dropped outside of a task. -/
theorem listed_moves (hinv : Inv th.held th.io) (hs : th.slotted) (hm : Moves th label th')
    (hr : r ∈ th.listOf s) (ho : th.io.unfinished r.op = true) : r ∈ th'.listOf s ∨
      label = .ioScopeCancel ∧ th.current.bind th.slots = some s ∨
      label = .scopeGuard ∧ th.current = none ∧ ∃ frames, th.frames = .unwinding s :: frames := by
  cases hm with
  | made hc => exact .inl (mem_listOf_made hs hc hr)
  | ioScope =>
    obtain ⟨list, hlist, hr⟩ := mem_listOf.mp hr
    refine .inl (mem_listOf.mpr ⟨list, ?_, hr⟩)
    exact (List.getElem?_append_left (List.getElem?_eq_some_iff.mp hlist).1).trans hlist
  | scopeReady | guardExit =>
    rw [listOf, entriesOf_cancelAndWait]
    exact .inl hr
  | gather hf hl hret | settling hf hl hret | settled hf hl hret =>
    obtain ⟨rfl, hkept⟩ := exit_retains hinv hf hl hret hs
    exact .inl (mem_listOf_setList hl hr fun heq => hkept r (heq ▸ hr) ho)
  | guardAborted hf hg hl he hc =>
    have heq := guard_list hs hf hg
    subst heq
    by_cases hunwind : ∃ frames, th.frames = .unwinding s :: frames
    · exact .inr (.inr ⟨rfl, hc, hunwind⟩)
    · refine .inl (mem_listOf_setList hl hr fun heq => absurd ?_ hunwind)
      exact ⟨_, heq ▸ hf⟩
  | ioScopeCancel hc hslot hl =>
    by_cases hin : th.current.bind th.slots = some s
    · exact .inr (.inl ⟨rfl, hin⟩)
    · refine .inl (mem_listOf_setList hl hr fun heq => absurd ?_ hin)
      rw [hc, ← heq]
      exact hslot
  | ioScopeCanceled hf hl => exact .inl (mem_listOf_setWaits hl hr [])
  | waitPending =>
    unfold registerWait
    split
    · exact .inl hr
    · split
      · exact .inl hr
      · next hl => exact .inl (mem_listOf_setWaits hl hr _)
  | _ => exact .inl hr

end Thread

/-- A scope that has ended has nothing unfinished, and one that is being left
has it in its list. -/
structure Exits (th : Thread) : Prop where
  ended : ∀ s c, th.scopes[s]? = some ⟨c, true⟩ → ∀ o, s ∈ th.chainOf o → th.io.unfinished o = false
  exiting : ∀ s l b, .exiting s l b ∈ th.frames → ∀ o, s ∈ th.chainOf o →
    th.io.unfinished o = true → ∃ r ∈ th.listOf s, r.op = o

namespace Exits

variable {th th' : Thread} {label : Label}

section
variable (h : Exits th) (hinv : Inv th.held th.io) (hs : th.slotted) (hrec : Recorded th)
  (hm : Moves th label th')
include h hinv hs hrec hm

/-- A move that ends no scope but those with nothing unfinished, and leaves no
scope but those that are covered. -/
theorem step
    (hended : ∀ s c, th'.scopes[s]? = some ⟨c, true⟩ → (∃ c', th.scopes[s]? = some ⟨c', true⟩) ∨
      ∀ o, s ∈ th'.chainOf o → th'.io.unfinished o = false)
    (hframes : ∀ s l b, .exiting s l b ∈ th'.frames → (∃ b', .exiting s l b' ∈ th.frames) ∨
      ∀ o, s ∈ th'.chainOf o → th'.io.unfinished o = true → ∃ r ∈ th'.listOf s, r.op = o) :
    Exits th' := by
  constructor
  · intro s c hc o hchain
    rcases hended s c hc with ⟨c', hc'⟩ | hdone
    · rw [Bool.eq_false_iff]
      intro ho
      obtain ⟨hchain', ho'⟩ := Thread.unfinished_moves hinv hrec hm
        (Thread.not_polled_of_ended hs hc') hchain ho
      rw [h.ended s c' hc' o hchain'] at ho'
      cases ho'
    · exact hdone o hchain
  · intro s l b hframe o hchain ho
    rcases hframes s l b hframe with ⟨b', hframe'⟩ | hcovered
    · have hnot := Thread.not_polled_of_frame hs hframe' rfl rfl
      obtain ⟨hchain', ho'⟩ := Thread.unfinished_moves hinv hrec hm hnot hchain ho
      obtain ⟨r, hr, rfl⟩ := h.exiting s l b' hframe' o hchain' ho'
      rcases Thread.listed_moves hinv hs hm hr ho' with hr | ⟨-, hslot⟩ | ⟨-, -, frames, hf⟩
      · exact ⟨r, hr, rfl⟩
      · obtain ⟨t, hc, hslot⟩ := Option.bind_eq_some_iff.mp hslot
        exact absurd (Thread.slot_polled hs hc hslot) hnot
      · cases Thread.frame_unique hs.once (hf ▸ List.mem_cons_self ..) hframe' rfl rfl
    · exact hcovered o hchain ho

/-- A move that only works on the operations. -/
theorem keep (hscopes : th'.scopes = th.scopes) (hframes : th'.frames = th.frames) : Exits th' :=
  h.step hinv hs hrec hm (fun _ c hc => .inl ⟨c, hscopes ▸ hc⟩)
    fun _ _ b hframe => .inl ⟨b, hframes ▸ hframe⟩

/-- A frame that belongs to no exit comes or goes. -/
theorem reframe (hended : ∀ (s : Nat) (c : Option Nat), th'.scopes[s]? = some ⟨c, true⟩ →
      th.scopes[s]? = some ⟨c, true⟩)
    (hframes : ∀ s l b, .exiting s l b ∈ th'.frames → .exiting s l b ∈ th.frames) : Exits th' :=
  h.step hinv hs hrec hm (fun s c hc => .inl ⟨c, hended s c hc⟩)
    fun s l b hframe => .inl ⟨b, hframes s l b hframe⟩

end

variable {s l : Nat} {list : IoScopeCompletions} {io : Io} {frames : List Frame}

section
variable (h : Exits th) (hinv : Inv th.held th.io) (hs : th.slotted) (hrec : Recorded th)
include h hinv hs hrec

/-- A scope that is covered is left. -/
theorem leave {slots : Nat → Option Nat} (hf : th.frames = frame :: frames)
    (hcovers : th.covers s = true)
    (hm : Moves th label { th with slots, frames := .exiting s l b :: frames }) :
    Exits { th with slots, frames := .exiting s l b :: frames } := by
  refine h.step hinv hs hrec hm (fun _ c hc => .inl ⟨c, hc⟩) fun s' l b hframe => ?_
  rcases List.mem_cons.mp hframe with hhead | hframe
  · cases hhead
    exact .inr (Thread.covers_iff.mp hcovers)
  · exact .inl ⟨b, by rw [hf]; exact List.mem_cons_of_mem _ hframe⟩

theorem ready (hc : th.current = some t) (hf : th.frames = .polling s outer :: frames)
    (hcovers : th.covers s = true) : Exits ({ th with frames }.cancelAndWait t s outer) := by
  have hm : Moves th .scopeReady _ := .scopeReady hc hf
  have hslot := Thread.slot_of_polling hs hc hf
  have heq : { th with frames }.cancelAndWait t s outer =
      { { th with frames }.setSlot t outer with frames := .exiting s s false :: frames } := by
    simp only [Thread.cancelAndWait, hslot]
    rfl
  rw [heq] at hm ⊢
  exact h.leave hinv hs hrec hf hcovers hm

theorem guardExit (hf : th.frames = .unwinding s :: frames)
    (hg : (th.scopes[s]?).bind IoScopeFuture.completions = some l) (hl : th.lists[l]? = some list)
    (hc : th.current = some t) (hcovers : th.covers s = true) :
    Exits (({ th with frames }.setSlot t (some l)).cancelAndWait t s (th.slots t)) := by
  have hm : Moves th .scopeGuard _ := .guardExit hf hg hl hc
  have heq : ({ th with frames }.setSlot t (some l)).cancelAndWait t s (th.slots t) =
      { ({ th with frames }.setSlot t (some l)).setSlot t (th.slots t) with
        frames := .exiting s l false :: frames } := by
    simp only [Thread.cancelAndWait, Thread.setSlot, if_true]
  rw [heq] at hm ⊢
  exact h.leave hinv hs hrec hf hcovers hm

theorem gather (hf : th.frames = .exiting s l false :: frames) (hl : th.lists[l]? = some list)
    (hr : th.io.retainIncomplete list.completions.length list.completions = (io, kept)) :
    Exits ({ th with
      io := io.cancelAll (.exit s) kept
      waits := Thread.cancelWaits (some s) list.waits th.waits
      frames := .exiting s l true :: frames }.setList l ⟨kept, []⟩) := by
  refine h.step hinv hs hrec (.gather hf hl hr) (fun _ c hc => .inl ⟨c, hc⟩)
    fun s' l' b hframe => .inl ?_
  rcases List.mem_cons.mp hframe with hhead | hframe
  · cases hhead
    exact ⟨false, by rw [hf]; exact List.mem_cons_self ..⟩
  · exact ⟨b, by rw [hf]; exact List.mem_cons_of_mem _ hframe⟩

theorem settled (hf : th.frames = .exiting s l true :: frames) (hl : th.lists[l]? = some list)
    (hr : th.io.retainIncomplete list.completions.length list.completions = (io, [])) :
    Exits ({ ({ th with io }.setList l { list with completions := [] }) with
      frames }.endScope s) := by
  obtain ⟨rfl, hkept⟩ := Thread.exit_retains hinv hf hl hr hs
  have hframe : .exiting l l true ∈ th.frames := by
    rw [hf]
    exact List.mem_cons_self ..
  refine h.step hinv hs hrec (.settled hf hl hr) (fun s' c hc => ?_)
    fun s' l' b hframe => .inl ⟨b, by rw [hf]; exact List.mem_cons_of_mem _ hframe⟩
  rcases mem_of_set hc with ⟨rfl, _⟩ | ⟨_, hc⟩
  · refine .inr fun o hchain => ?_
    rw [Bool.eq_false_iff]
    intro ho
    have hlater : th.io.Later (fun _ => False) [] _ := .retainIncomplete hr
    have ho' := hlater.unfinished ho
    obtain ⟨r, hrmem, rfl⟩ := h.exiting _ _ _ hframe o hchain ho'
    cases hkept r hrmem ho'
  · exact .inl ⟨c, hc⟩

/-- A scope is dropped with an empty list, or outside of a task. -/
theorem dropped (hm : Moves th .scopeGuard th') (hf : th.frames = .unwinding s :: frames)
    (hdone : ∀ o, s ∈ th.chainOf o → th.io.unfinished o = false)
    (hio : th.io.Later (fun _ => False) [] th'.io) (hchains : th'.chains = th.chains)
    (hscopes : th'.scopes = th.scopes.set s ⟨none, true⟩) (hframes : th'.frames = frames) :
    Exits th' := by
  refine h.step hinv hs hrec hm (fun s' c hc => ?_) fun s' l b hframe => .inl ⟨b, ?_⟩
  · rw [hscopes] at hc
    rcases mem_of_set hc with ⟨rfl, _⟩ | ⟨_, hc⟩
    · refine .inr fun o hchain => ?_
      rw [Thread.chainOf, hchains] at hchain
      rw [Bool.eq_false_iff]
      intro ho
      have ho' := hio.unfinished ho
      rw [hdone o hchain] at ho'
      cases ho'
    · exact .inl ⟨c, hc⟩
  · rw [hf, ← hframes]
    exact List.mem_cons_of_mem _ hframe

theorem moves (hcovered : th.exitCovered label = true) (hm : Moves th label th') : Exits th' := by
  have reframe := h.reframe hinv hs hrec hm
  have keep := h.keep hinv hs hrec hm
  cases hm with
  | made =>
    have hsame := Thread.registerIo_same
    exact keep (hsame ..).1 (hsame ..).2
  | dropWaits | scopeDrop | ioScopeCancel =>
    refine reframe (fun _ _ hc => hc) fun s l b hframe => ?_
    simpa [Thread.setList] using hframe
  | dropped hf | ioScopeCanceled hf =>
    refine reframe (fun _ _ hc => hc) fun s l b hframe => ?_
    rw [hf]
    exact List.mem_cons_of_mem _ hframe
  | ioScope =>
    refine reframe (fun s c hc => ?_) fun _ _ _ hframe => hframe
    simp only [Thread.ioScope, List.getElem?_append] at hc
    split at hc
    · exact hc
    · rw [List.getElem?_singleton] at hc
      split at hc <;> cases hc
  | scopePoll hc hscope hfree =>
    refine reframe (fun s c hc => ?_) fun s l b hframe => ?_
    · rcases mem_of_set hc with ⟨_, heq⟩ | ⟨_, hc⟩
      · obtain ⟨hlist, _⟩ := Slotted.free_list hs hfree
        cases hscope.symm.trans hlist
        cases heq
      · exact hc
    · simpa using hframe
  | scopePending hc hf =>
    refine reframe (fun s c hc => ?_) fun s l b hframe => ?_
    · rcases mem_of_set hc with ⟨_, heq⟩ | ⟨_, hc⟩
      · cases heq
      · exact hc
    · rw [hf]
      exact List.mem_cons_of_mem _ hframe
  | scopeReady hc hf =>
    simp only [Thread.exitCovered, hf] at hcovered
    exact h.ready hinv hs hrec hc hf hcovered
  | gather hf hl hr => exact h.gather hinv hs hrec hf hl hr
  | settled hf hl hr => exact h.settled hinv hs hrec hf hl hr
  | guardTaken hf hg =>
    unfold Thread.slotted at hs
    rw [hf] at hs
    rw [hs.unwinding_list] at hg
    cases hg
  | guardEmpty hf hg hl he =>
    have heq := Thread.guard_list hs hf hg
    subst heq
    refine h.dropped hinv hs hrec (.guardEmpty hf hg hl he) hf (fun o hchain => ?_) (.refl _)
      rfl rfl rfl
    simp only [Thread.exitCovered, hf] at hcovered
    split at hcovered
    · rw [Bool.eq_false_iff]
      intro ho
      obtain ⟨r, hr, _⟩ := Thread.covers_iff.mp hcovered o hchain ho
      rw [Thread.listOf, Thread.entriesOf_eq hl, he] at hr
      cases hr
    · exact Thread.settledIn_iff.mp hcovered o hchain
  | guardAborted hf hg hl he hc =>
    simp only [Thread.exitCovered, hf, hc] at hcovered
    have heq := Thread.guard_list hs hf hg
    subst heq
    exact h.dropped hinv hs hrec (.guardAborted hf hg hl he hc) hf
      (Thread.settledIn_iff.mp hcovered) (.dropAll ..) rfl rfl rfl
  | guardExit hf hg hl hc =>
    simp only [Thread.exitCovered, hf, hc] at hcovered
    exact h.guardExit hinv hs hrec hf hg hl hc hcovered
  | waitPending =>
    have hsame := Thread.registerWait_same
    exact keep (hsame ..).1 (hsame ..).2
  | _ => exact keep rfl rfl

end

end Exits

theorem exits_of_reaches {th : Thread}
    (h : threads.Reaches (fun th label => th.exitCovered label = true) th) : Exits th := by
  induction h with
  | start => exact ⟨fun _ _ hc => (by cases hc), fun _ _ _ hmem => (by cases hmem)⟩
  | next hreach hallowed hnext ih =>
    exact ih.moves (inv_of_reaches hreach) (slotted_of_reaches hreach)
      (recorded_of_reaches hreach) hallowed (Thread.next_moves hnext)

/-! ## What the caller does -/

namespace Thread

/-- Every scope inside of `s` in which an operation was made has ended. -/
def InnerEnded (th : Thread) (s : Nat) : Prop :=
  ∀ o s', s ∈ th.chainOf o → (th.chainOf o).head? = some s' → s' ≠ s →
    ∃ c, th.scopes[s']? = some ⟨c, true⟩

/-- The caller does not call `io_scope_cancel` while an operation that was made
in the scope is unfinished, keeps no pending scope outside of the one in which
it was polled, and drops a scope outside of a task only with an empty list. -/
def Orderly (th : Thread) : Label → Prop
  | .ioScopeCancel => ∀ s, th.current.bind th.slots = some s → th.settledIn s = true
  | .scopeReady => ∀ s outer frames, th.frames = .polling s outer :: frames → th.InnerEnded s
  | .scopeGuard => ∀ s frames, th.frames = .unwinding s :: frames →
    th.InnerEnded s ∧ (th.current = none → th.listOf s = [])
  | _ => True

/-- Every unfinished operation is in the list of the scope in which it was made. -/
def Listed (th : Thread) : Prop :=
  ∀ o s, (th.chainOf o).head? = some s → th.io.unfinished o = true → ∃ r ∈ th.listOf s, r.op = o

variable {th th' : Thread}

theorem Listed.moves (h : th.Listed) (hinv : Inv th.held th.io) (hs : th.slotted)
    (hrec : Recorded th) (horderly : th.Orderly label) (hm : Moves th label th') : th'.Listed := by
  intro o s hhome ho
  have hold (hhome : (th.chainOf o).head? = some s) (ho : th.io.unfinished o = true) :
      ∃ r ∈ th'.listOf s, r.op = o := by
    obtain ⟨r, hr, rfl⟩ := h o s hhome ho
    rcases listed_moves hinv hs hm hr ho with hr | ⟨rfl, hslot⟩ | ⟨rfl, hcurrent, frames, hf⟩
    · exact ⟨r, hr, rfl⟩
    · rw [settledIn_iff.mp (horderly s hslot) r.op (List.mem_of_mem_head? hhome)] at ho
      cases ho
    · rw [(horderly s frames hf).2 hcurrent] at hr
      cases hr
  cases io_moves hinv hm with
  | later new hl hchains =>
    rw [chainOf, hchains] at hhome
    exact hold hhome (hl.unfinished ho)
  | made a hmakes hchains hc hth =>
    have hlength := hrec.made
    rw [chainOf, hchains, List.getElem?_append] at hhome
    split at hhome
    · next hlt => exact hold hhome (hmakes.unfinished ho (hlength ▸ hlt))
    · rw [List.getElem?_singleton] at hhome
      split at hhome
      · refine ⟨⟨a, th.io.nextOp⟩, ?_, (by omega : th.io.nextOp = o)⟩
        rw [hth, listOf_registerIo (by exact hs) (by exact hc), if_pos (by exact hhome)]
        exact List.mem_append_right _ (List.mem_singleton_self _)
      · cases hhome

/-- A scope whose inner scopes have ended is covered. -/
theorem Listed.covers (h : th.Listed) (hexits : Exits th) (hinner : th.InnerEnded s) :
    th.covers s = true := by
  refine covers_iff.mpr fun o hchain ho => ?_
  obtain ⟨s', hhome⟩ := Option.isSome_iff_exists.mp
    (List.isSome_head?.mpr (List.ne_nil_of_mem hchain))
  by_cases heq : s' = s
  · exact h o s (heq ▸ hhome) ho
  · obtain ⟨c, hc⟩ := hinner o s' hchain hhome heq
    rw [hexits.ended s' c hc o (List.mem_of_mem_head? hhome)] at ho
    cases ho

theorem Listed.exitCovered (h : th.Listed) (hexits : Exits th) (horderly : th.Orderly label) :
    th.exitCovered label = true := by
  cases label with
  | scopeReady =>
    rw [Thread.exitCovered]
    split
    · next hf => exact h.covers hexits (horderly _ _ _ hf)
    · rfl
  | scopeGuard =>
    rw [Thread.exitCovered]
    split
    · next s frames hf =>
      obtain ⟨hinner, hempty⟩ := horderly s frames hf
      have hcovers := h.covers hexits hinner
      split
      · exact hcovers
      · next hnone =>
        refine settledIn_iff.mpr fun o hchain => Bool.eq_false_iff.mpr fun ho => ?_
        obtain ⟨r, hr, -⟩ := covers_iff.mp hcovers o hchain ho
        rw [hempty (Option.not_isSome_iff_eq_none.mp hnone)] at hr
        cases hr
    · rfl
  | _ => rfl

end Thread

/-- **Every run of an orderly caller** leaves its scopes with all unfinished
operations in the list. -/
theorem exitCovered_of_orderly {th : Thread}
    (h : threads.Reaches (fun th label => th.Orderly label) th) :
    threads.Reaches (fun th label => th.exitCovered label = true) th ∧ th.Listed := by
  induction h with
  | start => exact ⟨.start, fun _ _ hhome => by cases hhome⟩
  | next hreach hallowed hnext ih =>
    obtain ⟨hcovered, hlisted⟩ := ih
    exact ⟨.next hcovered (hlisted.exitCovered (exits_of_reaches hcovered) hallowed) hnext,
      hlisted.moves (inv_of_reaches hreach) (slotted_of_reaches hreach)
        (recorded_of_reaches hreach) hallowed (Thread.next_moves hnext)⟩

/-! ## Every run -/

/-- Every operation that was made while the body of a scope was polled is
complete once the scope has resolved, panicked or been dropped. -/
def ScopesComplete (th : Thread) : Prop :=
  ∀ s scope, th.scopes[s]? = some scope → scope.ended = true →
    ∀ o, s ∈ th.chainOf o → ∀ c, th.io.completionOf o = some c → c.state.isFinished = true

end Kimojio.Ring
