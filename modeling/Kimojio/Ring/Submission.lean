import Kimojio.Ring.Completion

/-!
# Kimojio.Ring.Submission

`Ring::submit` with the capacity that a submission queue has: where the entries
do not fit, the kernel is asked once to take some, and then they have to fit.

The kernel may take none, for a reason that the code treats as transient; the
second attempt then panics (`exists_submit_panics`). The entry has been taken
out of the completion by that time, and the reference for the kernel is counted.
`submits_iff` has the condition under which `RingFuture::poll` and
`Completion::cancel` do what the model of the rings lets them do always.
-/

namespace Kimojio.Ring

namespace Errno

def intr : Errno := ⟨4⟩
def again : Errno := ⟨11⟩
def busy : Errno := ⟨16⟩

end Errno

def ioUringSubmissionEntries : Nat := 128

/-- `io_uring_enter` answers the number of entries that it took, or fails for a
reason after which the code goes on. -/
def transient : Except Errno Nat → Bool
  | .ok _ => true
  | .error e => e = .again ∨ e = .busy ∨ e = .intr

/-- The number of entries that were taken. -/
def submitted : Except Errno Nat → Nat
  | .ok n => n
  | .error _ => 0

namespace Io

variable (io : Io) (iopoll : Bool)

/-- The kernel takes entries, as many as it says. -/
def enter (io : Io) : Nat → Io
  | 0 => io
  | n + 1 =>
    match io.take iopoll with
    | some io => enter io n
    | none => io

/-- There is no result if the call panics. -/
def submitAndWait (answer : Except Errno Nat) : Option Io :=
  if transient answer then some (io.enter iopoll (submitted answer)) else none

def pushMultiple (entries : List Sqe) : Option Io :=
  if (io.rings iopoll).sq.length + entries.length ≤ ioUringSubmissionEntries then
    some (io.submit iopoll entries)
  else none

/-- `Ring::submit`; `answer` is what the kernel says if it is asked. -/
def submitOrEnter (answer : Except Errno Nat) (entries : List Sqe) : Option Io :=
  match io.pushMultiple iopoll entries with
  | some io => some io
  | none => (io.submitAndWait iopoll answer).bind (·.pushMultiple iopoll entries)

/-- The entries that a poll submits. -/
def entries (r : Ref) (entry : Entry) (timespec : Bool) : List Sqe :=
  .op r entry :: if timespec then [.linkTimeout r] else []

/-- `RingFuture::poll`. -/
def pollBounded (answer : Except Errno Nat) (aborted : Bool) (r : Ref) : Io × FuturePoll :=
  match io.heap.get r.addr with
  | some c =>
    match c.state with
    | .idle entry timespec =>
      if aborted then (io, .panicked)
      else
        match (io.clone r.addr).submitOrEnter c.iopoll answer (entries r entry timespec) with
        | some io => (io.setState r.addr (.submitted false), .pending)
        -- the state has lost its entry
        | none => (io.clone r.addr, .panicked)
    | _ => io.poll aborted r
  | none => io.poll aborted r

/-- `Completion::cancel`; there is no result if it panics. -/
def cancelBounded (answer : Except Errno Nat) (r : Ref) (cause : Cause) : Option Io :=
  match io.heap.get r.addr with
  | some c =>
    match c.state with
    | .submitted false =>
      let io := { io with requests := (r.op, cause) :: io.requests }
      (io.setState r.addr (.submitted true)).submitOrEnter c.iopoll answer [.asyncCancel r]
    | _ => some (io.cancel r cause)
  | none => some (io.cancel r cause)

/-- There is room for so many entries once the kernel has answered. -/
def HasRoom (answer : Except Errno Nat) (count : Nat) : Prop :=
  (io.rings iopoll).sq.length - submitted answer + count ≤ ioUringSubmissionEntries

/-- The entries stand together at the end of the queue. The kernel has taken
entries that were there before, and nothing else has changed in the ring. -/
def Enqueued (entries : List Sqe) (io' : Io) : Prop :=
  ∃ k, io'.rings iopoll = ⟨(io.rings iopoll).sq.drop k ++ entries,
      (io.rings iopoll).kernel ++ (io.rings iopoll).sq.take k, (io.rings iopoll).cq⟩

/-! ## The queue -/

theorem enter_spec (io : Io) (iopoll : Bool) (n : Nat) : (io.enter iopoll n).heap = io.heap ∧
      (io.enter iopoll n).rings iopoll =
        ⟨(io.rings iopoll).sq.drop n, (io.rings iopoll).kernel ++ (io.rings iopoll).sq.take n,
          (io.rings iopoll).cq⟩ := by
  induction n generalizing io with
  | zero => simp [enter]
  | succ n ih =>
    unfold enter take
    cases hsq : (io.rings iopoll).sq with
    | nil =>
      refine ⟨rfl, ?_⟩
      cases hring : io.rings iopoll
      simp_all
    | cons e sq =>
      -- what the kernel records of a cancellation is not part of the ring
      cases e <;> simp only [ih, setRing, List.drop_succ_cons, List.take_succ_cons,
        List.append_assoc, List.singleton_append, and_self, if_true]

/-- **`Ring::submit`**: it panics where there is no room. -/
theorem submitOrEnter_spec (io : Io) (iopoll : Bool) (htransient : transient answer = true)
    (entries : List Sqe) :
    (io.HasRoom iopoll answer entries.length →
      ∃ io', io.submitOrEnter iopoll answer entries = some io' ∧ io'.heap = io.heap ∧
        io.Enqueued iopoll entries io') ∧
    (¬ io.HasRoom iopoll answer entries.length →
      io.submitOrEnter iopoll answer entries = none) := by
  obtain ⟨hheap, hring⟩ := io.enter_spec iopoll (submitted answer)
  unfold HasRoom submitOrEnter
  by_cases hfits : (io.rings iopoll).sq.length + entries.length ≤ ioUringSubmissionEntries
  · have hpush : io.pushMultiple iopoll entries = some (io.submit iopoll entries) := if_pos hfits
    rw [hpush]
    refine ⟨fun _ => ⟨_, rfl, rfl, 0, ?_⟩, fun hroom => absurd ?_ hroom⟩
    · simp [submit, setRing]
    · omega
  · have hpush : io.pushMultiple iopoll entries = none := if_neg hfits
    rw [hpush, submitAndWait, if_pos htransient, Option.bind_some]
    refine ⟨fun hroom => ⟨_, if_pos ?_, hheap, submitted answer, ?_⟩, fun hroom => if_neg ?_⟩
    · simpa [hring] using hroom
    · simp [submit, setRing, hring]
    · simpa [hring] using hroom

/-- Before the queue is full, a poll is the one of the model without a capacity. -/
theorem pollBounded_of_fits (aborted : Bool) (r : Ref)
    (hfits : ∀ iopoll, (io.rings iopoll).sq.length + 2 ≤ ioUringSubmissionEntries) :
    io.pollBounded answer aborted r = io.poll aborted r := by
  have hpush (iopoll : Bool) (entry : Entry) (timespec : Bool) :
      (io.clone r.addr).submitOrEnter iopoll answer (entries r entry timespec) =
        some ((io.clone r.addr).submit iopoll (entries r entry timespec)) := by
    have hlen : (entries r entry timespec).length ≤ 2 := by cases timespec <;> simp [entries]
    have hroom := hfits iopoll
    have hpush : (io.clone r.addr).pushMultiple iopoll (entries r entry timespec) =
      some ((io.clone r.addr).submit iopoll (entries r entry timespec)) := if_pos (by
        show (io.rings iopoll).sq.length + _ ≤ _
        omega)
    rw [submitOrEnter, hpush]
  unfold pollBounded
  split
  · next c hc =>
    split
    · next hstate =>
      rw [hpush, poll, hc]
      simp only [hstate]
      rfl
    · rfl
  · rfl

/-- **Submission**: a poll of a new operation leaves it submitted, with its entry and
the timeout linked to it at the end of the queue, and the first cancellation of
a submitted one enqueues its entry, exactly if there is room. -/
theorem submits_iff (io : Io) (answer : Except Errno Nat) (htransient : transient answer = true)
    (r : Ref) (c : Completion) (hc : io.heap.get r.addr = some c) :
    (∀ entry timespec, c.state = .idle entry timespec →
      ((∃ io', io.pollBounded answer false r = (io', .pending) ∧
          io'.heap.get r.addr = some { c with state := .submitted false } ∧
          io.Enqueued c.iopoll (entries r entry timespec) io') ↔
        io.HasRoom c.iopoll answer (entries r entry timespec).length)) ∧
    (∀ cause, c.state = .submitted false → ((∃ io', io.cancelBounded answer r cause = some io' ∧
          io'.heap.get r.addr = some { c with state := .submitted true } ∧
          io.Enqueued c.iopoll [.asyncCancel r] io') ↔
        io.HasRoom c.iopoll answer 1)) := by
  constructor
  · intro entry timespec hstate
    obtain ⟨hsome, hnone⟩ := submitOrEnter_spec (io.clone r.addr) c.iopoll htransient
      (entries r entry timespec)
    simp only [pollBounded, hc, hstate, Bool.false_eq_true, if_false]
    constructor
    · rintro ⟨io', hpoll, -⟩
      refine Classical.byContradiction fun hroom => ?_
      simp [hnone hroom] at hpoll
    · intro hroom
      obtain ⟨io', hsubmit, hheap, hqueue⟩ := hsome hroom
      rw [hsubmit]
      refine ⟨_, rfl, ?_, hqueue⟩
      simp [setState, RcHeap.get_modify, hheap, clone, RcHeap.get_clone, hc]
  · intro cause hstate
    obtain ⟨hsome, hnone⟩ := submitOrEnter_spec
      ({ io with requests := (r.op, cause) :: io.requests }.setState r.addr (.submitted true))
      c.iopoll htransient [.asyncCancel r]
    simp only [cancelBounded, hc, hstate]
    constructor
    · rintro ⟨io', hcancel, -⟩
      refine Classical.byContradiction fun hroom => ?_
      simp [hnone hroom] at hcancel
    · intro hroom
      obtain ⟨io', hsubmit, hheap, hqueue⟩ := hsome hroom
      refine ⟨io', hsubmit, ?_, hqueue⟩
      simp [hheap, setState, RcHeap.get_modify, hc]

/-- As many submitted operations as the queue has room for, and a new one. -/
def full : Io :=
  let new (io : Io) (i : Nat) : Io := (io.newCompletion i ⟨.idle .other false, .none, false, i⟩).1
  let submitted := (List.range ioUringSubmissionEntries).foldl
    (fun io i => ((new io i).pollBounded (.ok 0) false ⟨i, i⟩).1) .new
  new submitted ioUringSubmissionEntries

theorem submits_iff_full :
    transient (.ok 1) = true ∧ full.heap.get 128 = some ⟨.idle .other false, .none, false, 128⟩ ∧
      ∃ io', full.pollBounded (.ok 1) false ⟨128, 128⟩ = (io', .pending) := by
  have hc : full.heap.get 128 = some ⟨.idle .other false, .none, false, 128⟩ := by
    decide +kernel
  obtain ⟨io', hpoll, -⟩ := ((submits_iff full (.ok 1) rfl ⟨128, 128⟩ _ hc).1 _ _ rfl).mpr
    (by unfold HasRoom; decide +kernel)
  exact ⟨rfl, hc, io', hpoll⟩

/-- The queue is full and the kernel takes nothing. -/
theorem exists_submit_panics :
    ∃ io : Io, io.heap.get 128 = some ⟨.idle .other false, .none, false, 128⟩ ∧
      transient (.error .again) = true ∧
      (io.pollBounded (.error .again) false ⟨128, 128⟩).2 = .panicked :=
  ⟨full, by decide +kernel⟩

end Io

end Kimojio.Ring
