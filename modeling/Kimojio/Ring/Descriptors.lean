import Kimojio.Ring.Reuse

/-!
# Kimojio.Ring.Descriptors

Who releases the descriptor of a close.

The descriptor is in the completion until its future knows the result: then
either the kernel has released it, or the future drops it. `Closes` keeps
the account of the descriptors, where `closes` are the operations that were
made by `close` and `live` are the references of the futures that are
neither resolved nor dropped. Each primitive of `Io` has one lemma.
-/

namespace Kimojio.Ring

/-- What the entry of an operation asks for. -/
def entryOf (closes : List Nat) (o : Nat) : Entry := if o ∈ closes then .close o else .other

/-- How often the kernel released the descriptor of a close that has this
result. -/
def CqeResult.releases (result : CqeResult) : Nat :=
  if result = .error .canceled then 0 else 1

/-- A completion, and how often its descriptor was released. -/
structure Accounted (closes : List Nat) (c : Completion) (n : Nat) : Prop where
  fd : c.fd = if c.op ∈ closes ∧ c.state ≠ .terminated then [c.op] else []
  idle : ∀ entry timespec, c.state = .idle entry timespec → entry = entryOf closes c.op ∧ n = 0
  completed : ∀ result, c.state = .completed result → c.op ∈ closes → n = result.releases
  terminated : c.state = .terminated → c.op ∈ closes → n = 1

structure Closes (closes : List Nat) (live : List Ref) (io : Io) : Prop where
  entries : ∀ b r entry, .op r entry ∈ (io.rings b).kernel ++ (io.rings b).sq →
    entry = entryOf closes r.op ∧ io.released.count r.op = 0
  posted : ∀ b, ∀ cqe ∈ (io.rings b).cq, ∀ r, cqe.userData = some r → r.op ∈ closes →
    io.released.count r.op = cqe.result.releases ∧
      (cqe.result = .error .canceled → r.op ∈ io.requests.map Prod.fst)
  cells : ∀ a c, io.heap.get a = some c → Accounted closes c (io.released.count c.op)
  asked : ∀ a c, io.heap.get a = some c → c.op ∈ io.requests.map Prod.fst → 2 ≤ c.state.rank
  done : ∀ o ∈ closes, o ∉ live.map Ref.op → io.released.count o = 1 ∧
    ∀ a c, io.heap.get a = some c → c.op = o → c.state = .terminated
  past : ∀ o ∈ closes ++ io.requests.map Prod.fst, o < io.nextOp
  bound : ∀ o, io.released.count o ≤ if o ∈ closes then 1 else 0

/-- A ring without any new operation in its queues, or any new result of one. -/
structure Quieter (old new : IoUring) : Prop where
  ops : ∀ r entry, .op r entry ∈ new.kernel ++ new.sq → .op r entry ∈ old.kernel ++ old.sq
  cq : ∀ cqe ∈ new.cq, cqe ∈ old.cq ∨ cqe.userData = none

theorem Quieter.refl (ring : IoUring) : Quieter ring ring :=
  ⟨fun _ _ hmem => hmem, fun _ hmem => .inl hmem⟩

/-- The first result is taken. -/
theorem Quieter.tail {ring : IoUring} (h : ring.cq = cqe :: rest) :
    Quieter ring ⟨ring.sq, ring.kernel, rest⟩ where
  ops := fun _ _ hmem => hmem
  cq := fun _ hmem => .inl (h ▸ List.mem_cons_of_mem _ hmem)

theorem Io.quieter_setRing {io : Io} (h : Quieter (io.rings b) ring) (b' : Bool) :
    Quieter (io.rings b') ((io.setRing b ring).rings b') := by
  rw [rings_setRing]
  split
  · next hb => exact hb ▸ h
  · exact .refl _

/-! ## Operations and addresses -/

namespace Inv

variable {held : List Ref} {io : Io} {r : Ref} {a : Nat} {c : Completion}

theorem lt_nextOp (h : Inv held io) (hc : io.heap.get a = some c) : c.op < io.nextOp :=
  (List.getElem?_eq_some_iff.mp (h.placed a c hc)).1

theorem addr_eq (h : Inv held io) (hr : r ∈ held ++ io.inFlight) (hc : io.heap.get a = some c)
    (hop : c.op = r.op) : r.addr = a := by
  obtain ⟨c', hc', hop'⟩ := h.owns.exists_get hr
  have hplace := h.placed _ c' hc'
  rw [hop', ← hop, h.placed a c hc] at hplace
  exact (Option.some.inj hplace).symm

/-- What is in flight is submitted. -/
theorem flight_ne (h : Inv held io) (hr : r ∈ io.inFlight) (hc : io.heap.get a = some c)
    (hsub : c.state.isSubmitted = false) : r.op ≠ c.op := by
  intro hop
  have haddr := h.addr_eq (List.mem_append_right _ hr) hc hop.symm
  have hsub' := h.owns.flight_submitted hr (haddr ▸ hc)
  rw [hsub] at hsub'
  cases hsub'

theorem others_ne (h : Inv held io) (hperm : io.inFlight.Perm (r :: rest))
    (hc : io.heap.get r.addr = some c) (hq : q ∈ rest) : q.op ≠ c.op := by
  intro hop
  have hmem : q ∈ io.inFlight := hperm.mem_iff.mpr (List.mem_cons_of_mem _ hq)
  have haddr := h.addr_eq (List.mem_append_right _ hmem) hc hop.symm
  have honce := (hperm.map Ref.addr).nodup_iff.mp h.owns.once
  rw [List.map_cons, List.nodup_cons] at honce
  exact honce.1 (haddr ▸ List.mem_map_of_mem hq)

end Inv

namespace Accounted

variable {closes closes' : List Nat} {c : Completion} {n m : Nat}

theorem congr (h : Accounted closes c n) (hop : c.op ∈ closes' ↔ c.op ∈ closes) :
    Accounted closes' c n := by
  have hentry : entryOf closes' c.op = entryOf closes c.op := by
    unfold entryOf
    simp only [hop]
  constructor
  · simp only [hop]
    exact h.fd
  · rw [hentry]
    exact h.idle
  · rw [hop]
    exact h.completed
  · rw [hop]
    exact h.terminated

/-- The operation goes on without being terminated. -/
theorem withState (h : Accounted closes c n) (hopen : c.state ≠ .terminated)
    (hstate : state ≠ .terminated) (hidle : ∀ entry timespec, state ≠ .idle entry timespec)
    (hcompleted : ∀ result, state = .completed result → c.op ∈ closes → m = result.releases) :
    Accounted closes { c with state } m := by
  refine ⟨?_, fun entry timespec heq => absurd heq (hidle entry timespec), hcompleted,
    fun heq => absurd heq hstate⟩
  have hfd := h.fd
  simp only [hopen, ne_eq, not_false_eq_true, and_true] at hfd
  simp only [hstate, ne_eq, not_false_eq_true, and_true]
  exact hfd

/-- While an operation is submitted its count may change. -/
theorem submitted (h : Accounted closes c n) (hsub : c.state.isSubmitted = true) :
    Accounted closes c m := by
  refine ⟨h.fd, fun _ _ hstate => ?_, fun _ hstate => ?_, fun hstate => ?_⟩ <;>
    rw [hstate] at hsub <;> cases hsub

end Accounted

/-! ## Cancellation of one completion -/

namespace Completion

theorem op_takeFd (c : Completion) : c.takeFd.op = c.op := by
  unfold takeFd
  split <;> rfl

theorem fd_takeFd (c : Completion) : c.takeFd.fd = [] := by
  unfold takeFd
  split
  · rfl
  · next hnot =>
    unfold fd
    split
    · next hres => exact absurd hres (hnot _)
    · rfl

/-- What `cancel` leaves. -/
def canceled (c : Completion) : Completion :=
  match c.state with
  | .idle _ _ => { c with state := .completed (.error .canceled) }
  | .submitted _ => { c with state := .submitted true }
  | _ => c

theorem isSubmitted_canceled (c : Completion) :
    c.canceled.state.isSubmitted = c.state.isSubmitted := by
  unfold canceled
  split
  · next hstate => rw [hstate]; rfl
  · next hstate => rw [hstate]; rfl
  · rfl

theorem canceled_eq {c : Completion} (hidle : ∀ entry timespec, c.state ≠ .idle entry timespec)
    (hsubmitted : c.state ≠ .submitted false) : c.canceled = c := by
  unfold canceled
  split
  · next hstate => exact absurd hstate (hidle _ _)
  · next canceled hstate =>
    cases canceled with
    | false => exact absurd hstate hsubmitted
    | true => rw [← hstate]
  · rfl

theorem two_le_rank_canceled (c : Completion) : 2 ≤ c.canceled.state.rank := by
  unfold canceled
  split
  · exact Nat.le_succ 2
  · exact Nat.le_refl 2
  · next hidle hsubmitted =>
    cases hstate : c.state with
    | idle entry timespec => exact absurd hstate (hidle entry timespec)
    | submitted canceled => exact absurd hstate (hsubmitted canceled)
    | _ => simp [CompletionState.rank]

end Completion

theorem Accounted.canceled (h : Accounted closes c n) : Accounted closes c.canceled n := by
  unfold Completion.canceled
  split
  · next hstate =>
    refine h.withState (by simp [hstate]) (by simp) (by simp) fun result heq _ => ?_
    cases heq
    exact (h.idle _ _ hstate).2
  · next hstate => exact h.withState (by simp [hstate]) (by simp) (by simp) (by simp)
  · exact h

theorem Io.get_setState {io : Io} (hc : io.heap.get a = some c) (state : CompletionState) :
    (io.setState a state).heap.get b = if b = a then some { c with state } else io.heap.get b := by
  show (io.heap.modify a _).get b = _
  rw [RcHeap.get_modify, hc]
  rfl

theorem Io.get_finish_ite {io : Io} (hc : io.heap.get a = some c) (result : CqeResult) :
    (io.finish a result).heap.get b =
      if b = a then some { c.takeFd with state := .terminated } else io.heap.get b := by
  refine (RcHeap.get_modify ..).trans ?_
  rw [hc]
  rfl

theorem Io.get_finish {io : Io} (hc : io.heap.get a = some c) (result : CqeResult) :
    (io.finish a result).heap.get a = some { c.takeFd with state := .terminated } := by
  rw [Io.get_finish_ite hc, if_pos rfl]

/-- What `cancel` does to the completions, and what it leaves in the rings. -/
theorem Io.cancel_effect (io : Io) (r : Ref) (cause : Cause) :
    (io.cancel r cause).released = io.released ∧
    (∀ a, (io.cancel r cause).heap.get a =
      if a = r.addr then (io.heap.get r.addr).map Completion.canceled else io.heap.get a) ∧
    ∀ b, Quieter (io.rings b) ((io.cancel r cause).rings b) := by
  unfold Io.cancel
  dsimp only
  split
  · next c hc =>
    rw [hc]
    split
    · next hstate =>
      refine ⟨rfl, fun a => ?_, fun b => .refl _⟩
      refine (Io.get_setState hc _).trans ?_
      rw [Option.map_some, Completion.canceled, hstate]
    · next hstate =>
      refine ⟨rfl, fun a => ?_, Io.quieter_setRing
        ⟨fun q entry hmem => ?_, fun _ hmem => .inl hmem⟩⟩
      · refine (Io.get_setState hc _).trans ?_
        rw [Option.map_some, Completion.canceled, hstate]
      · have hmem' : .op q entry ∈
            (io.rings c.iopoll).kernel ++ ((io.rings c.iopoll).sq ++ [.asyncCancel r]) := hmem
        simpa using hmem'
    · next hidle hsubmitted =>
      refine ⟨rfl, fun a => ?_, fun b => .refl _⟩
      show io.heap.get a = _
      split
      · next ha => rw [ha, hc, Option.map_some, Completion.canceled_eq hidle hsubmitted]
      · rfl
  · next hc =>
    refine ⟨rfl, fun a => ?_, fun b => .refl _⟩
    show io.heap.get a = _
    split
    · next ha => rw [ha, hc, Option.map_none]
    · rfl

namespace Closes

variable {closes : List Nat} {live live' held : List Ref} {io io' : Io} {r : Ref} {c : Completion}

theorem new : Closes [] [] .new where
  entries := fun _ _ _ h => by cases h
  posted := fun _ _ h => by cases h
  cells := fun _ _ h => by cases h
  asked := fun _ _ h => by cases h
  done := fun _ h => by cases h
  past := fun _ h => by cases h
  bound := fun _ => Nat.zero_le _

theorem once (h : Closes closes live io) (o : Nat) : io.released.count o ≤ 1 :=
  Nat.le_trans (h.bound o) (by split <;> decide)

/-- More futures are live. -/
theorem mono (h : Closes closes live io) (hlive : ∀ q ∈ live, q ∈ live') :
    Closes closes live' io := by
  refine { h with done := fun o ho hnot => h.done o ho fun hmem => hnot ?_ }
  obtain ⟨q, hq, rfl⟩ := List.mem_map.mp hmem
  exact List.mem_map_of_mem (hlive q hq)

/-- A future whose close is terminated is not needed any more. -/
theorem forget (h : Closes closes (r :: live) io) (hinv : Inv (r :: held) io)
    (hc : io.heap.get r.addr = some c) (hstate : r.op ∈ closes → c.state = .terminated) :
    Closes closes live io := by
  have hr : r ∈ r :: held ++ io.inFlight := List.mem_cons_self ..
  have hop : c.op = r.op := hinv.owns.own r hr c hc
  refine { h with done := fun o ho hnot => ?_ }
  by_cases heq : o = r.op
  · subst heq
    have hcount := (h.cells _ c hc).terminated (hstate ho) (hop ▸ ho)
    rw [hop] at hcount
    refine ⟨hcount, fun a c' hc' hop' => ?_⟩
    rw [← hinv.addr_eq hr hc' hop', hc] at hc'
    cases hc'
    exact hstate ho
  · exact h.done o ho fun hmem => (List.mem_cons.mp hmem).elim heq hnot

/-- Cells may go, entries may move within the queues. -/
theorem quiet (h : Closes closes live io)
    (hcells : ∀ a c, io'.heap.get a = some c → io.heap.get a = some c)
    (hrings : ∀ b, Quieter (io.rings b) (io'.rings b)) (hreleased : io'.released = io.released)
    (hplaces : io'.places = io.places) (hrequests : io'.requests = io.requests) :
    Closes closes live io' where
  entries := by
    intro b r entry hmem
    rw [hreleased]
    exact h.entries b r entry ((hrings b).ops r entry hmem)
  posted := by
    intro b cqe hmem r hr
    rw [hreleased, hrequests]
    rcases (hrings b).cq cqe hmem with hmem | hnone
    · exact h.posted b cqe hmem r hr
    · rw [hr] at hnone
      cases hnone
  cells := by
    intro a c hc
    rw [hreleased]
    exact h.cells a c (hcells a c hc)
  asked := by
    intro a c hc
    rw [hrequests]
    exact h.asked a c (hcells a c hc)
  done := by
    intro o ho hnot
    rw [hreleased]
    exact ⟨(h.done o ho hnot).1, fun a c hc => (h.done o ho hnot).2 a c (hcells a c hc)⟩
  past := by
    rw [hrequests]
    show ∀ o ∈ _, o < io'.places.length
    rw [hplaces]
    exact h.past
  bound := by
    rw [hreleased]
    exact h.bound

theorem clone (h : Closes closes live io) (a : Nat) : Closes closes live (io.clone a) := by
  refine h.quiet (fun b c hc => ?_) (fun _ => .refl _) rfl rfl rfl
  have hc' : (io.heap.clone a).get b = some c := hc
  rw [RcHeap.get_clone] at hc'
  exact hc'

/-! ## References that are dropped -/

/-- A completion that no live future refers to has no descriptor. -/
theorem fd_eq_nil (h : Closes closes live io) (hinv : Inv held io) (hlive : ∀ q ∈ live, q ∈ held)
    (hc : io.heap.get a = some c) (hout : ∀ q ∈ live, q.addr ≠ a) : c.fd = [] := by
  rw [(h.cells a c hc).fd]
  refine if_neg fun hopen => ?_
  by_cases hmem : c.op ∈ live.map Ref.op
  · obtain ⟨q, hq, hop⟩ := List.mem_map.mp hmem
    exact hout q hq (hinv.addr_eq (List.mem_append_left _ (hlive q hq)) hc hop.symm)
  · exact hopen.2 ((h.done c.op hopen.1 hmem).2 a c hc rfl)

section
variable (h : Closes closes live io) (hinv : Inv (r :: held) io) (hlive : ∀ q ∈ live, q ∈ held)
include h hinv hlive

/-- The last reference to a completion is not that of a live future. -/
theorem last_fd (hone : io.heap.strongCount r.addr = 1)
    (hc : io.heap.get r.addr = some c) : c.fd = [] := by
  have halone := hinv.owns.owned.unique_iff.mp hone
  refine h.fd_eq_nil hinv (fun q hq => List.mem_cons_of_mem _ (hlive q hq)) hc
    fun q hq haddr => halone (List.mem_append_left _ ?_)
  rw [← haddr]
  exact List.mem_map_of_mem (List.mem_append_left _ (hlive q hq))

theorem dropRc : Closes closes live (io.dropRc r.addr) := by
  have hnone : (if io.heap.strongCount r.addr = 1
      then (io.heap.get r.addr).elim [] Completion.fd else []) = [] := by
    split
    · next hone =>
      cases hc : io.heap.get r.addr with
      | none => rfl
      | some c => exact h.last_fd hinv hlive hone hc
    · rfl
  refine h.quiet (fun a c hc => ?_) (fun _ => .refl _) ?_ rfl rfl
  · have hc' : (io.heap.drop r.addr).get a = some c := hc
    rw [RcHeap.get_drop] at hc'
    split at hc'
    · cases hc'
    · exact hc'
  · unfold Io.dropRc
    rw [hnone]
    rfl

theorem returnCompletion : Closes closes live (io.returnCompletion r.addr) := by
  unfold Io.returnCompletion
  split
  · exact h.quiet (fun _ _ hc => hc) (fun _ => .refl _) rfl rfl rfl
  · exact h.dropRc hinv hlive

end

/-! ## The operation goes on -/

/-- One operation goes on: its completion changes, and no other operation
loses anything. -/
theorem update (more : List (Nat × Cause)) (h : Closes closes live io) (hinv : Inv held io)
    (hc : io.heap.get a = some c)
    (hget : ∀ b, io'.heap.get b = if b = a then some c' else io.heap.get b)
    (hlater : c.Later True c')
    (haccount : Accounted closes c' (io'.released.count c.op))
    (hcount : ∀ o, o ≠ c.op → io'.released.count o = io.released.count o)
    (hbound : io'.released.count c.op ≤ if c.op ∈ closes then 1 else 0)
    (hentries : ∀ b r entry, .op r entry ∈ (io'.rings b).kernel ++ (io'.rings b).sq →
      r.op ≠ c.op ∧ .op r entry ∈ (io.rings b).kernel ++ (io.rings b).sq ∨
        r.op = c.op ∧ entry = entryOf closes c.op ∧ io'.released.count c.op = 0)
    (hposted : ∀ b, ∀ cqe ∈ (io'.rings b).cq, ∀ r, cqe.userData = some r →
      r.op ≠ c.op ∧ cqe ∈ (io.rings b).cq ∨
        r.op = c.op ∧ (c.op ∈ closes → io'.released.count c.op = cqe.result.releases ∧
          (cqe.result = .error .canceled → c.op ∈ io.requests.map Prod.fst)))
    (hplaces : io'.places = io.places) (hrequests : io'.requests = more ++ io.requests)
    (hmore : ∀ p ∈ more, p.1 = c.op ∧ 2 ≤ c'.state.rank) : Closes closes live io' := by
  have hasked : ∀ o ∈ io'.requests.map Prod.fst,
      o ∈ io.requests.map Prod.fst ∨ o = c.op ∧ 2 ≤ c'.state.rank := by
    intro o ho
    rw [hrequests, List.map_append, List.mem_append] at ho
    refine ho.symm.imp_right fun ho => ?_
    obtain ⟨p, hp, rfl⟩ := List.mem_map.mp ho
    exact hmore p hp
  -- every completion but this one is where it was
  have hfrom : ∀ b c₁, io'.heap.get b = some c₁ →
      c₁ = c' ∨ io.heap.get b = some c₁ ∧ c₁.op ≠ c.op := by
    intro b c₁ hc₁
    rw [hget] at hc₁
    split at hc₁
    · exact .inl (Option.some.inj hc₁).symm
    · next hb =>
      refine .inr ⟨hc₁, fun hop => hb ?_⟩
      have hplace := hinv.placed b c₁ hc₁
      rw [hop, hinv.placed a c hc] at hplace
      exact (Option.some.inj hplace).symm
  constructor
  · intro b r entry hmem
    rcases hentries b r entry hmem with ⟨hne, hmem⟩ | ⟨heq, hentry, hzero⟩
    · rw [hcount _ hne]
      exact h.entries b r entry hmem
    · rw [heq]
      exact ⟨hentry, hzero⟩
  · intro b cqe hmem r hr hclose
    rw [hrequests, List.map_append, List.mem_append]
    rcases hposted b cqe hmem r hr with ⟨hne, hmem⟩ | ⟨heq, hposted⟩
    · rw [hcount _ hne]
      exact (h.posted b cqe hmem r hr hclose).imp_right fun hcanceled heq => .inr (hcanceled heq)
    · rw [heq] at hclose ⊢
      exact (hposted hclose).imp_right fun hcanceled heq => .inr (hcanceled heq)
  · intro b c₁ hc₁
    rcases hfrom b c₁ hc₁ with rfl | ⟨hc₁, hne⟩
    · rw [hlater.op]
      exact haccount
    · rw [hcount _ hne]
      exact h.cells b c₁ hc₁
  · intro b c₁ hc₁ hmem
    rcases hfrom b c₁ hc₁ with rfl | ⟨hc₁, hne⟩
    · rw [hlater.op] at hmem
      rcases hasked _ hmem with hmem | ⟨_, hrank⟩
      · exact Nat.le_trans (h.asked a c hc hmem) hlater.rank
      · exact hrank
    · exact h.asked b c₁ hc₁ ((hasked _ hmem).resolve_right fun hnew => hne hnew.1)
  · intro o ho hnot
    obtain ⟨hone, hterm⟩ := h.done o ho hnot
    by_cases hop : o = c.op
    · have hended : c'.state = .terminated := by
        have hrank := hlater.rank
        rw [hterm a c hc hop.symm] at hrank
        exact CompletionState.eq_terminated hrank
      refine ⟨hop ▸ haccount.terminated hended (hlater.op ▸ hop ▸ ho), fun b c₁ hc₁ hop₁ => ?_⟩
      rcases hfrom b c₁ hc₁ with rfl | ⟨_, hne⟩
      · exact hended
      · exact absurd (hop₁.trans hop) hne
    · rw [hcount o hop]
      refine ⟨hone, fun b c₁ hc₁ hop₁ => ?_⟩
      rcases hfrom b c₁ hc₁ with rfl | ⟨hc₁, _⟩
      · exact absurd (hop₁.symm.trans hlater.op) hop
      · exact hterm b c₁ hc₁ hop₁
  · intro o ho
    show o < io'.places.length
    rw [hplaces]
    rcases List.mem_append.mp ho with ho | ho
    · exact h.past o (List.mem_append_left _ ho)
    · rcases hasked o ho with ho | ⟨rfl, _⟩
      · exact h.past o (List.mem_append_right _ ho)
      · exact hinv.lt_nextOp hc
  · intro o
    by_cases hop : o = c.op
    · exact hop ▸ hbound
    · rw [hcount o hop]
      exact h.bound o

theorem cancel (h : Closes closes live io) (hinv : Inv held io) (hr : r ∈ held) (cause : Cause) :
    Closes closes live (io.cancel r cause) := by
  obtain ⟨hreleased, hget, hrings⟩ := Io.cancel_effect io r cause
  have hlater : io.Later (fun _ => True) _ (io.cancel r cause) := .cancel cause fun _ _ _ => trivial
  obtain ⟨c, hc, hop⟩ := hinv.exists_get hr
  rw [hc, Option.map_some] at hget
  have hc' := (hget r.addr).trans (if_pos rfl)
  refine h.update [(r.op, cause)] hinv hc hget ?_ ?_ (fun _ _ => by rw [hreleased])
    (hreleased ▸ h.bound _) (fun b q entry hmem => ?_) (fun b cqe hmem q hq => ?_)
    hlater.places hlater.requests fun p hp => ?_
  · obtain ⟨_, hold, hlater⟩ := hlater.heap _ _ hc'
    cases hc.symm.trans hold
    exact hlater
  · rw [hreleased]
    exact (h.cells _ c hc).canceled
  · have hold := (hrings b).ops q entry hmem
    by_cases heq : q.op = c.op
    · exact .inr ⟨heq, hreleased ▸ heq ▸ h.entries b q entry hold⟩
    · exact .inl ⟨heq, hold⟩
  · have hold := ((hrings b).cq cqe hmem).resolve_right (by simp [hq])
    by_cases heq : q.op = c.op
    · exact .inr ⟨heq, hreleased ▸ heq ▸ h.posted b cqe hold q hq⟩
    · exact .inl ⟨heq, hold⟩
  · rw [List.mem_singleton.mp hp]
    exact ⟨hop.symm, c.two_le_rank_canceled⟩

/-- `finish_close`: the descriptor is dropped if the kernel did not close it. -/
theorem finish (h : Closes closes live io) (hinv : Inv held io)
    (hc : io.heap.get a = some c) (hstate : c.state = .completed result) :
    Closes closes live (io.finish a result) := by
  have hcell := h.cells a c hc
  have hfinished : ∀ q ∈ io.inFlight, q.op ≠ c.op :=
    fun q hq => hinv.flight_ne hq hc (by rw [hstate]; rfl)
  have hfd : c.fd = if c.op ∈ closes then [c.op] else [] := by
    rw [hcell.fd]
    simp [hstate]
  have hreleased : (io.finish a result).released =
      (if result = .error .canceled ∧ c.op ∈ closes then [c.op] else []) ++ io.released := by
    simp only [Io.finish, hc, Option.elim_some, hfd]
    by_cases hcanceled : result = .error .canceled <;> simp [hcanceled]
  have hone : c.op ∈ closes → (io.finish a result).released.count c.op = 1 := by
    intro hclose
    rw [hreleased, List.count_append, hcell.completed result hstate hclose, CqeResult.releases]
    by_cases hcanceled : result = .error .canceled <;> simp [hcanceled, hclose]
  refine h.update [] hinv hc (fun b => Io.get_finish_ite hc result)
    ⟨c.op_takeFd, ?_, fun _ => .inr trivial⟩ ?_ ?_ ?_ ?_ ?_ rfl rfl nofun
  · rw [hstate]
    exact Nat.le_succ 3
  · refine ⟨?_, fun _ _ heq => (by cases heq), fun _ heq => (by cases heq), fun _ hclose => ?_⟩
    · rw [if_neg fun hboth => hboth.2 rfl]
      exact c.fd_takeFd
    · exact hone (c.op_takeFd ▸ hclose)
  · intro o ho
    rw [hreleased, List.count_append]
    split
    · simp [Ne.symm ho]
    · simp
  · by_cases hclose : c.op ∈ closes
    · simp [hclose, hone hclose]
    · rw [hreleased, if_neg fun hboth => hclose hboth.2]
      exact h.bound _
  · exact fun b r entry hmem => .inl ⟨hfinished r (Io.mem_inFlight hmem), hmem⟩
  · exact fun b cqe hmem r hr => .inl ⟨hfinished r (Io.mem_inFlight_cq hmem hr), hmem⟩

theorem submit (h : Closes closes live io) (hinv : Inv held io) (hr : r ∈ held)
    (hc : io.heap.get r.addr = some c) (hstate : c.state = .idle entry timespec)
    (hlink : ∀ e ∈ link, e = .linkTimeout r) :
    Closes closes live
      (((io.clone r.addr).submit b (.op r entry :: link)).setState r.addr (.submitted false)) := by
  have hcell := h.cells _ c hc
  have hop : c.op = r.op := hinv.owns.own r (List.mem_append_left _ hr) c hc
  have hidle : ∀ q ∈ io.inFlight, q.op ≠ c.op :=
    fun q hq => hinv.flight_ne hq hc (by rw [hstate]; rfl)
  obtain ⟨hentry, hzero⟩ := hcell.idle entry timespec hstate
  have hclone : ((io.clone r.addr).submit b (.op r entry :: link)).heap.get r.addr = some c := by
    refine Eq.trans ?_ hc
    exact RcHeap.get_clone ..
  have hget : ∀ b', (((io.clone r.addr).submit b (.op r entry :: link)).setState r.addr
      (.submitted false)).heap.get b' =
        if b' = r.addr then some { c with state := .submitted false } else io.heap.get b' := by
    intro b'
    refine (Io.get_setState hclone _).trans ?_
    split
    · rfl
    · exact RcHeap.get_clone ..
  refine h.update [] hinv hc hget ⟨rfl, ?_, nofun⟩
    (hcell.withState (by simp [hstate]) (by simp) (by simp) (by simp)) (fun _ _ => rfl)
    (h.bound _) ?_ ?_ rfl rfl nofun
  · rw [hstate]
    exact Nat.zero_le _
  · intro b' q entry' hmem
    have hold : .op q entry' ∈ (io.rings b').kernel ++ (io.rings b').sq ∨
        .op q entry' = Sqe.op r entry := by
      by_cases hb : b' = b
      · have hmem' : .op q entry' ∈ (io.rings b).kernel ++
            ((io.rings b).sq ++ .op r entry :: link) := by
          simpa [Io.setState, Io.submit, Io.clone, Io.rings_setRing, hb] using hmem
        rw [← List.append_assoc, List.mem_append, List.mem_cons] at hmem'
        rcases hmem' with hmem' | heq | hmem'
        · exact .inl (hb ▸ hmem')
        · exact .inr heq
        · cases hlink _ hmem'
      · refine .inl ?_
        simpa [Io.setState, Io.submit, Io.clone, Io.rings_setRing, hb] using hmem
    rcases hold with hold | heq
    · exact .inl ⟨hidle q (Io.mem_inFlight hold), hold⟩
    · cases heq
      exact .inr ⟨hop.symm, hentry, hzero⟩
  · intro b' cqe hmem q hq
    have hold : cqe ∈ (io.rings b').cq := by
      by_cases hb : b' = b
      · simpa [Io.setState, Io.submit, Io.clone, Io.rings_setRing, hb] using hmem
      · simpa [Io.setState, Io.submit, Io.clone, Io.rings_setRing, hb] using hmem
    exact .inl ⟨hidle q (Io.mem_inFlight_cq hold hq), hold⟩

/-! ## The future -/

theorem poll (h : Closes closes (r :: live) io) (hinv : Inv (r :: held) io)
    (hlive : ∀ q ∈ live, q ∈ held) (hp : io.poll aborted r = (io', result)) :
    Closes closes (if result.isReady then live else r :: live) io' := by
  obtain ⟨c, hc, _⟩ := hinv.exists_get (List.mem_cons_self ..)
  rw [Io.poll, hc] at hp
  dsimp only at hp
  split at hp
  · next entry timespec hstate =>
    split at hp
    · cases hp
      exact h
    · cases hp
      refine h.submit hinv (List.mem_cons_self ..) hc hstate fun e he => ?_
      split at he
      · exact List.mem_singleton.mp he
      · cases he
  · split at hp <;> cases hp <;> exact h
  · next result hstate =>
    cases hp
    have hfinish := h.finish hinv hc hstate
    have hdelivered : Closes closes (r :: live)
        { io.finish r.addr result with delivered := r.op :: io.delivered } :=
      hfinish.quiet (fun _ _ hc => hc) (fun _ => .refl _) rfl rfl rfl
    have hinv' := hinv.deliver (List.mem_cons_self ..) hc hstate
    have hget := Io.get_finish hc result
    exact (hdelivered.forget hinv' hget fun _ => rfl).returnCompletion hinv' hlive
  · cases hp
    exact h

/-- The end of a drop: a close is not on its way any more. -/
theorem abandon (h : Closes closes (r :: live) io) (hinv : Inv (r :: held) io)
    (hlive : ∀ q ∈ live, q ∈ held) (hc : io.heap.get r.addr = some c)
    (hended : r.op ∈ closes → c.state.isFinished = true) :
    Closes closes live (io.abandon r) := by
  unfold Io.abandon
  simp only [hc]
  split
  · next result hstate =>
    have hinv' := hinv.finish hc hstate
    have hfinish := h.finish hinv hc hstate
    exact (hfinish.forget hinv' (Io.get_finish hc result) fun _ => rfl).dropRc hinv' hlive
  · next hnot =>
    refine (h.forget hinv hc fun hclose => ?_).dropRc hinv hlive
    have hfinished := hended hclose
    cases hstate : c.state with
    | completed result => exact absurd hstate (hnot result)
    | terminated => rfl
    | _ =>
      rw [hstate] at hfinished
      cases hfinished

/-! ## The kernel -/

theorem take (h : Closes closes live io) (ht : io.take b = some io') : Closes closes live io' := by
  rw [Io.take] at ht
  split at ht
  · cases ht
  · next e sq hsq =>
    have hquieter : Quieter (io.rings b) ⟨sq, (io.rings b).kernel ++ [e], (io.rings b).cq⟩ := by
      refine ⟨fun q entry hmem => ?_, fun _ hmem => .inl hmem⟩
      rw [hsq]
      simpa using hmem
    split at ht <;> cases ht <;>
      exact h.quiet (fun _ _ hc => hc) (Io.quieter_setRing hquieter) rfl rfl rfl

section
variable (h : Closes closes live io) (hinv : Inv held io)
include h hinv

/-- The kernel posts the result of an operation: it has released the
descriptor of a close unless that was canceled. -/
theorem posts (he : (io.rings b).kernel[i]? = some (.op r entry))
    (hrings : io'.rings = (io.setRing b ⟨(io.rings b).sq, (io.rings b).kernel.eraseIdx i,
      (io.rings b).cq ++ [⟨some r, result⟩]⟩).rings) (hheap : io'.heap = io.heap)
    (hplaces : io'.places = io.places) (hrequests : io'.requests = io.requests)
    (hreleased : io'.released =
      if r.op ∈ closes ∧ result ≠ .error .canceled then r.op :: io.released else io.released)
    (hasked : r.op ∈ closes → result = .error .canceled → r.op ∈ io.requests.map Prod.fst) :
    Closes closes live io' := by
  have hmem : .op r entry ∈ (io.rings b).kernel ++ (io.rings b).sq :=
    List.mem_append_left _ (List.mem_of_getElem? he)
  have hzero := (h.entries b r entry hmem).2
  obtain ⟨c, hc, hop⟩ := hinv.owns.exists_get (List.mem_append_right _ (Io.mem_inFlight hmem))
  have hsub := hinv.owns.flight_submitted (Io.mem_inFlight hmem) hc
  have hperm : io.inFlight.Perm (r :: (io.setRing b ⟨(io.rings b).sq,
      (io.rings b).kernel.eraseIdx i, (io.rings b).cq⟩).inFlight) := by
    refine Io.inFlight_setRing [] [r] ?_
    have hkernel := (perm_cons_eraseIdx he).filterMap Sqe.userData
    simp only [IoUring.inFlight, List.nil_append, List.append_assoc]
    refine ((hkernel.append_right _).append_left _).trans ?_
    exact List.perm_middle
  have hring : Quieter (io.rings b) ⟨(io.rings b).sq, (io.rings b).kernel.eraseIdx i,
      (io.rings b).cq⟩ :=
    ⟨fun q entry hq => List.mem_append.mpr
      ((List.mem_append.mp hq).imp List.mem_of_mem_eraseIdx id), fun _ hmem => .inl hmem⟩
  have hquieter := Io.quieter_setRing hring
  generalize hkept : io.setRing b ⟨(io.rings b).sq, (io.rings b).kernel.eraseIdx i,
    (io.rings b).cq⟩ = kept at hperm hquieter
  have hcount : io'.released.count r.op =
      if r.op ∈ closes ∧ result ≠ .error .canceled then 1 else 0 := by
    rw [hreleased]
    split
    · rw [List.count_cons_self, hzero]
    · exact hzero
  have hget : ∀ a, io'.heap.get a = if a = r.addr then some c else io.heap.get a := by
    intro a
    rw [hheap]
    split
    · next ha => rw [ha, hc]
    · rfl
  refine h.update [] hinv hc hget (.refl c) ((h.cells _ c hc).submitted hsub) ?_ ?_ ?_ ?_
    hplaces hrequests (by simp) <;> rw [hop]
  · intro o ho
    rw [hreleased]
    split
    · rw [List.count_cons_of_ne (Ne.symm ho)]
    · rfl
  · rw [hcount]
    split
    · next hboth => simp [hboth.1]
    · exact Nat.zero_le _
  · intro b' q entry' hq
    have hold : .op q entry' ∈ (kept.rings b').kernel ++ (kept.rings b').sq := by
      rw [hrings, Io.rings_setRing] at hq
      rw [← hkept, Io.rings_setRing]
      split at hq
      · next hb => simpa [hb] using hq
      · next hb => simpa [hb] using hq
    exact .inl ⟨hop ▸ hinv.others_ne hperm hc (Io.mem_inFlight hold), (hquieter b').ops q _ hold⟩
  · intro b' cqe hcqe q hq
    have hnew : cqe ∈ (kept.rings b').cq ∨ cqe = ⟨some r, result⟩ := by
      rw [hrings, Io.rings_setRing] at hcqe
      rw [← hkept, Io.rings_setRing]
      split at hcqe
      · next hb => simpa [hb] using hcqe
      · next hb => exact .inl (by simpa [hb] using hcqe)
    rcases hnew with hold | rfl
    · refine .inl ⟨hop ▸ hinv.others_ne hperm hc (Io.mem_inFlight_cq hold hq), ?_⟩
      exact ((hquieter b').cq cqe hold).resolve_right (by simp [hq])
    · cases hq
      refine .inr ⟨rfl, fun hclose => ⟨?_, hasked hclose⟩⟩
      rw [hcount, CqeResult.releases]
      by_cases hcanceled : result = .error .canceled <;> simp [hcanceled, hclose]

theorem post (hasked : ∀ r fd, (io.rings b).kernel[i]? = some (.op r (.close fd)) →
      result = .error .canceled → r.op ∈ io.requests.map Prod.fst)
    (hp : io.post b i result = some io') : Closes closes live io' := by
  rw [Io.post] at hp
  split at hp
  · cases hp
  · next e he =>
    have hmem : e ∈ (io.rings b).kernel ++ (io.rings b).sq :=
      List.mem_append_left _ (List.mem_of_getElem? he)
    cases e with
    | op r entry =>
      have hentry := (h.entries b r entry hmem).1
      unfold entryOf at hentry
      by_cases hclose : r.op ∈ closes
      · rw [if_pos hclose] at hentry
        subst hentry
        dsimp only at hp
        split at hp
        · next hcanceled =>
          cases hp
          refine h.posts hinv he rfl rfl rfl rfl ?_ fun _ => hasked r _ he
          rw [if_neg fun hboth => hboth.2 hcanceled]
          rfl
        · next hcanceled =>
          cases hp
          refine h.posts hinv he rfl rfl rfl rfl ?_ fun _ => hasked r _ he
          rw [if_pos ⟨hclose, hcanceled⟩]
          rfl
      · rw [if_neg hclose] at hentry
        subst hentry
        cases hp
        refine h.posts hinv he rfl rfl rfl rfl ?_ fun hmem => absurd hmem hclose
        rw [if_neg fun hboth => hclose hboth.1]
        rfl
    | _ =>
      cases hp
      refine h.quiet (fun _ _ hc => hc) (Io.quieter_setRing
        ⟨fun q entry hq => ?_, fun cqe hcqe => ?_⟩)
        rfl rfl rfl
      · exact List.mem_append.mpr ((List.mem_append.mp hq).imp List.mem_of_mem_eraseIdx id)
      · rcases List.mem_append.mp hcqe with hcqe | hcqe
        · exact .inl hcqe
        · exact .inr (by rw [List.mem_singleton.mp hcqe]; rfl)

/-- The result is what the kernel posted: somebody asked for the cancellation
of a close that was canceled. -/
theorem completes (hcq : (io.rings b).cq = cqe :: cq) (hdata : cqe.userData = some r)
    (hc : io.heap.get r.addr = some c) (hop : c.op = r.op)
    (hstate : c.state = .submitted canceled)
    (hresult : result = if cqe.result = .error .canceled ∧ canceled = false then .error .time
      else cqe.result)
    (hinv' : Inv (r :: held) ((io.setCq b cq).setState r.addr (.completed result))) :
    Closes closes live ((io.setCq b cq).setState r.addr (.completed result)) := by
  have hget : ∀ a, ((io.setCq b cq).setState r.addr (.completed result)).heap.get a =
        if a = r.addr then some { c with state := .completed result } else io.heap.get a :=
    fun _ => Io.get_setState (by exact hc) _
  have hquieter := Io.quieter_setRing (.tail hcq)
  have hhead : cqe ∈ (io.rings b).cq := by
    rw [hcq]
    exact List.mem_cons_self ..
  have hsame : c.op ∈ closes → result = cqe.result := by
    intro hclose
    rw [hresult]
    refine if_neg fun hboth => ?_
    have hasked := (h.posted b cqe hhead r hdata (hop ▸ hclose)).2 hboth.1
    have hrank := h.asked _ c hc (hop ▸ hasked)
    rw [hstate, hboth.2] at hrank
    exact absurd hrank (by decide)
  have hends {q : Ref} (hq : q ∈ ((io.setCq b cq).setState r.addr (.completed result)).inFlight) :
      q.op ≠ c.op := by
    have hc' := (hget r.addr).trans (if_pos rfl)
    exact Inv.flight_ne (c := { c with state := .completed result }) hinv' hq hc' rfl
  refine h.update [] hinv hc hget ⟨rfl, ?_, fun _ => .inr trivial⟩
    ((h.cells _ c hc).withState (by simp [hstate]) (by simp) (by simp) fun result' heq hclose => ?_)
    (fun _ _ => rfl) (h.bound _) (fun b' q entry hq => ?_) (fun b' cqe' hcqe q hq => ?_)
    rfl rfl nofun
  · rw [hstate]
    show _ ≤ 3
    cases canceled <;> decide
  · cases heq
    rw [hsame hclose, hop]
    exact (h.posted b cqe hhead r hdata (hop ▸ hclose)).1
  · exact .inl ⟨hends (Io.mem_inFlight hq), (hquieter b').ops q entry hq⟩
  · refine .inl ⟨hends (Io.mem_inFlight_cq hcqe hq), ?_⟩
    exact ((hquieter b').cq cqe' hcqe).resolve_right (by simp [hq])

theorem processCompletion (hlive : ∀ q ∈ live, q ∈ held) (hp : io.processCompletion b = some io') :
    Closes closes live io' := by
  cases hinv.processed hp with
  | skipped hcq hdata =>
    exact h.quiet (fun _ _ hc => hc) (Io.quieter_setRing (.tail hcq)) rfl rfl rfl
  | completed hcq hdata hc hop hstate hresult hinv' =>
    exact (h.completes hinv hcq hdata hc hop hstate hresult hinv').returnCompletion hinv' hlive

/-! ## A new operation -/

/-- The new operation is the only one that can be added to the closes. -/
theorem made (hget : ∀ b c', io'.heap.get b = some c' → b = a ∧ c' = c ∨ io.heap.get b = some c')
    (hop : c.op = io.nextOp) (hrings : io'.rings = io.rings)
    (hplaces : io'.places = io.places ++ [a]) (hrequests : io'.requests = io.requests)
    (hreleased : io'.released = io.released)
    (hcloses : ∀ o, o ≠ io.nextOp → (o ∈ closes' ↔ o ∈ closes)) (haccount : Accounted closes' c 0) :
    Closes closes' (⟨a, io.nextOp⟩ :: live) io' := by
  have hlt : ∀ q ∈ io.inFlight, q.op ≠ io.nextOp := by
    intro q hq
    obtain ⟨c', hc', hop'⟩ := hinv.owns.exists_get (List.mem_append_right held hq)
    exact hop' ▸ Nat.ne_of_lt (hinv.lt_nextOp hc')
  have hzero := h.bound io.nextOp
  rw [if_neg fun hmem => Nat.lt_irrefl _ (h.past _ (List.mem_append_left _ hmem)),
    Nat.le_zero] at hzero
  have hunasked : io.nextOp ∉ io.requests.map Prod.fst :=
    fun hmem => Nat.lt_irrefl _ (h.past _ (List.mem_append_right _ hmem))
  constructor
  · intro b r entry hmem
    rw [hrings] at hmem
    rw [hreleased]
    obtain ⟨hentry, hcount⟩ := h.entries b r entry hmem
    refine ⟨?_, hcount⟩
    unfold entryOf at hentry ⊢
    simp only [hcloses _ (hlt r (Io.mem_inFlight hmem))]
    exact hentry
  · intro b cqe hmem r hr hclose
    rw [hrings] at hmem
    rw [hreleased, hrequests]
    exact h.posted b cqe hmem r hr ((hcloses _ (hlt r (Io.mem_inFlight_cq hmem hr))).mp hclose)
  · intro b c' hc'
    rw [hreleased]
    rcases hget b c' hc' with ⟨_, rfl⟩ | hc'
    · rw [hop, hzero]
      exact haccount
    · exact (h.cells b c' hc').congr (hcloses _ (Nat.ne_of_lt (hinv.lt_nextOp hc')))
  · intro b c' hc' hmem
    rw [hrequests] at hmem
    rcases hget b c' hc' with ⟨_, rfl⟩ | hc'
    · exact absurd (hop ▸ hmem) hunasked
    · exact h.asked b c' hc' hmem
  · intro o ho hnot
    rw [List.map_cons, List.mem_cons, not_or] at hnot
    obtain ⟨hone, hterm⟩ := h.done o ((hcloses o hnot.1).mp ho) hnot.2
    rw [hreleased]
    refine ⟨hone, fun b c' hc' hop' => ?_⟩
    rcases hget b c' hc' with ⟨_, rfl⟩ | hc'
    · exact absurd (hop'.symm.trans hop) hnot.1
    · exact hterm b c' hc' hop'
  · intro o ho
    show o < io'.places.length
    rw [hplaces, List.length_append]
    rw [hrequests, List.mem_append] at ho
    by_cases hnew : o = io.nextOp
    · rw [hnew]
      exact Nat.lt_succ_self _
    · refine Nat.lt_succ_of_lt (h.past o (List.mem_append.mpr ?_))
      exact ho.imp_left (hcloses o hnew).mp
  · intro o
    rw [hreleased]
    by_cases hnew : o = io.nextOp
    · rw [hnew, hzero]
      exact Nat.zero_le _
    · simp only [hcloses o hnew]
      exact h.bound o

end

/-- A pooled completion has no descriptor that would be dropped with it. -/
theorem newCompletion {a fresh : Nat} (h : Closes closes live io) (hinv : Inv held io)
    (hlive : ∀ q ∈ live, q ∈ held) (hnew : io.newCompletion fresh c = (io', some a))
    (hop : c.op = io.nextOp) (hcloses : ∀ o, o ≠ io.nextOp → (o ∈ closes' ↔ o ∈ closes))
    (haccount : Accounted closes' c 0) : Closes closes' (⟨a, io.nextOp⟩ :: live) io' := by
  rw [Io.newCompletion] at hnew
  split at hnew
  · next a' pool hpool =>
    rw [if_pos (hinv.pooled_strongCount hpool)] at hnew
    cases hnew
    refine h.made hinv (fun b _ => RcHeap.cases_overwrite _ _ b) hop rfl rfl rfl ?_ hcloses haccount
    show (io.heap.get a).elim [] Completion.fd ++ io.released = io.released
    cases hc : io.heap.get a with
    | none => rfl
    | some c₀ =>
      have hout : ∀ q ∈ live, q.addr ≠ a := by
        intro q hq haddr
        refine hinv.owns.pooled q (List.mem_append_left _ (hlive q hq)) ?_
        rw [hpool, haddr]
        exact List.mem_cons_self ..
      rw [Option.elim_some, h.fd_eq_nil hinv hlive hc hout]
      rfl
  · cases hnew
    exact h.made hinv (fun b _ => RcHeap.cases_alloc _ _ b) hop rfl rfl rfl rfl hcloses haccount

/-! ## Whole lists of references -/

theorem retainIncomplete (h : Closes closes live io) (hinv : Inv (rest ++ held) io)
    (hlive : ∀ q ∈ live, q ∈ held) (hr : io.retainIncomplete n rest = (io', kept)) :
    Closes closes live io' := by
  have hboth := Io.retain_rule (P := fun io l => Closes closes live io ∧ Inv (l ++ held) io)
    (fun hp h => ⟨h.1, h.2.perm (hp.append_right _)⟩)
    (fun _ h => ⟨h.1.returnCompletion h.2 fun q hq => List.mem_append_right _ (hlive q hq),
      h.2.returnCompletion⟩) ⟨h, hinv⟩ hr
  exact hboth.1

theorem cancelAll (cause : Cause) (h : Closes closes live io) (hinv : Inv held io)
    (hr : ∀ r ∈ refs, r ∈ held) : Closes closes live (io.cancelAll cause refs) := by
  induction refs generalizing io with
  | nil => exact h
  | cons r refs ih =>
    have hmem := hr r (List.mem_cons_self ..)
    exact ih (h.cancel hinv hmem cause) (hinv.cancel hmem cause)
      fun q hq => hr q (List.mem_cons_of_mem _ hq)

theorem drain (cause : Cause) (h : Closes closes live io) (hinv : Inv (refs ++ held) io)
    (hlive : ∀ q ∈ live, q ∈ held) : Closes closes live (io.drain cause refs) := by
  induction refs generalizing io with
  | nil => exact h
  | cons r refs ih =>
    have hcancel := h.cancel hinv (List.mem_cons_self ..) cause
    have hinv' := hinv.cancel (List.mem_cons_self ..) cause
    have hall : ∀ q ∈ live, q ∈ refs ++ held :=
      fun q hq => List.mem_append_right _ (hlive q hq)
    exact ih (hcancel.returnCompletion hinv' hall) hinv'.returnCompletion

theorem dropAll (h : Closes closes live io) (hinv : Inv (refs ++ held) io)
    (hlive : ∀ q ∈ live, q ∈ held) : Closes closes live (io.dropAll refs) := by
  induction refs generalizing io with
  | nil => exact h
  | cons r refs ih =>
    have hall : ∀ q ∈ live, q ∈ refs ++ held :=
      fun q hq => List.mem_append_right _ (hlive q hq)
    exact ih (h.dropRc hinv hall) hinv.dropRc

end Closes

end Kimojio.Ring
