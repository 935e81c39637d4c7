import Kimojio.Ring.Reuse

/-!
# Kimojio.Ring.Progress

The drop of a `RingFuture` may block the thread until its operation is complete, and
serves one of the rings meanwhile. A submitted operation has an entry in its ring, and
as long as a ring has entries the kernel or `process_completions` can make a step in it,
so no drop waits in vain.
-/

namespace Kimojio.Ring

/-- The steps that the kernel and `process_completions` have to make for the entries. -/
def IoUring.steps (ring : IoUring) : Nat :=
  3 * ring.sq.length + 2 * ring.kernel.length + ring.cq.length

/-- The ring in which the kernel or `process_completions` makes a step. -/
def Label.ring : Label → Option Bool
  | .take b | .post b _ _ | .process b => some b
  | _ => none

/-- Steps in one ring lead from one state of a thread to another. -/
def ServedBy (b : Bool) (th th' : Thread) : Prop :=
  ∃ labels, (∀ l ∈ labels, l.ring = some b) ∧ threads.run th labels = some th'

namespace Io

variable {io io' : Io} {b : Bool}

/-- There is less to do in one ring, and the other one is as before. -/
def Serves (b : Bool) (io io' : Io) : Prop :=
  (io'.rings b).steps < (io.rings b).steps ∧ io'.rings (!b) = io.rings (!b)

theorem serves_take (h : io.take b = some io') : io.Serves b io' := by
  grind [take, setRing, Serves, IoUring.steps]

theorem serves_post (h : io.post b i result = some io') : io.Serves b io' := by
  grind [post, setRing, Serves, IoUring.steps]

theorem serves_processCompletion (h : io.processCompletion b = some io') : io.Serves b io' := by
  unfold processCompletion at h
  split at h
  · cases h
  · next cq hcq =>
    -- what becomes of the completion does not matter to the rings
    have hrings : io'.rings = (io.setCq b cq).rings := by
      grind [returnCompletion, setState, dropRc]
    simp [Serves, IoUring.steps, hrings, setRing, hcq]

end Io

namespace Thread

/-- While a ring has work, it can do a step. -/
theorem exists_step (th : Thread) (h : 0 < (th.io.rings b).steps) :
    ∃ l io, l.ring = some b ∧ th.next l = some { th with io := io } ∧ th.io.Serves b io := by
  match hsq : (th.io.rings b).sq, hkernel : (th.io.rings b).kernel, hcq : (th.io.rings b).cq with
  | e :: sq, _, _ =>
    obtain ⟨io, hio⟩ : ∃ io, th.io.take b = some io := by
      simp only [Io.take, hsq]
      split <;> exact ⟨_, rfl⟩
    exact ⟨.take b, io, rfl, by simp [next, hio], Io.serves_take hio⟩
  | [], e :: kernel, _ =>
    obtain ⟨io, hio⟩ : ∃ io, th.io.post b 0 (.ok 0) = some io := by
      simp only [Io.post, hkernel, List.getElem?_cons_zero]
      split <;> exact ⟨_, rfl⟩
    exact ⟨.post b 0 (.ok 0), io, rfl, by simp [next, hio], Io.serves_post hio⟩
  | [], [], cqe :: cq =>
    obtain ⟨io, hio⟩ : ∃ io, th.io.processCompletion b = some io := by
      simp only [Io.processCompletion, hcq]
      split
      · exact ⟨_, rfl⟩
      · split
        · exact ⟨_, rfl⟩
        · split <;> exact ⟨_, rfl⟩
    exact ⟨.process b, io, rfl, by simp [next, hio], Io.serves_processCompletion hio⟩
  | [], [], [] => simp [IoUring.steps, hsq, hkernel, hcq] at h

/-- A ring can be served until it is idle. -/
theorem exists_servedBy (th : Thread) (b : Bool) : ∃ io, ServedBy b th { th with io := io } ∧
    (io.rings b).steps = 0 ∧ io.rings (!b) = th.io.rings (!b) := by
  generalize hn : (th.io.rings b).steps = n
  induction n using Nat.strongRecOn generalizing th with
  | ind n ih =>
    by_cases hzero : n = 0
    · exact ⟨th.io, ⟨[], nofun, rfl⟩, hn.trans hzero, rfl⟩
    · obtain ⟨l, io, hl, hnext, hlt, hother⟩ := th.exists_step (hn ▸ Nat.pos_of_ne_zero hzero)
      obtain ⟨io', ⟨labels, hlabels, hrun⟩, hzero, hother'⟩ :=
        ih _ (hn ▸ hlt) { th with io := io } rfl
      refine ⟨io', ⟨l :: labels, by simpa [hl] using hlabels, ?_⟩, hzero, hother'.trans hother⟩
      rw [System.run, show threads.next th l = _ from hnext]
      exact hrun

end Thread

/-- Served until idle, a ring completes what was in flight. -/
theorem exists_completed (h : threads.Reaches (fun _ _ => True) th) (b : Bool) :
    ∃ io, ServedBy b th { th with io := io } ∧ ∀ r ∈ (th.io.rings b).inFlight, ∀ c,
      io.heap.get r.addr = some c → c.state.isSubmitted = false := by
  obtain ⟨io, ⟨labels, hlabels, hrun⟩, hzero, hother⟩ := th.exists_servedBy b
  refine ⟨io, ⟨labels, hlabels, hrun⟩, fun r hr c hc => Bool.eq_false_iff.mpr fun hsub => ?_⟩
  have hempty : (io.rings b).inFlight = [] := by
    unfold IoUring.steps at hzero
    simp [IoUring.inFlight]
    grind
  obtain ⟨q, hq, haddr⟩ := List.mem_map.mp
    (((inv_of_reaches (h.run_any hrun)).owns.submitted _ c hc).mp hsub)
  -- the entry that is left is in the other ring, but an operation has one entry
  have honce := (inv_of_reaches h).owns.once
  rw [Io.inFlight, List.map_append, List.nodup_append] at honce
  have hr := List.mem_map_of_mem (f := Ref.addr) hr
  have hq : q ∈ (io.rings false).inFlight ++ (io.rings true).inFlight := hq
  cases b with
  | false =>
    rw [hempty, List.nil_append, show io.rings true = _ from hother] at hq
    exact honce.2.2 _ hr _ (List.mem_map_of_mem hq) haddr.symm
  | true =>
    rw [hempty, List.append_nil, show io.rings false = _ from hother] at hq
    exact honce.2.2 _ (List.mem_map_of_mem hq) _ hr haddr

theorem exists_dropped {th : Thread} (hframes : th.frames = .dropping f :: frames)
    (h : ∀ c, io.heap.get f.handle.addr = some c → c.state.isSubmitted = false) :
    ∃ th', threads.next { th with io := io } .dropped = some th' ∧ th'.frames = frames := by
  have hwait : Thread.mustWait io f = false := by
    simp only [Thread.mustWait, Option.any_eq_false]
    intro c hc
    simp [Completion.mustWait, h c hc]
  simp [threads, Thread.next, Thread.droppedFuture, hframes, hwait]

/-- **No drop waits in vain**: whatever the tasks of a thread have done, the operations that
are in flight in a ring can be completed by steps in this ring alone, and a drop that waits
for its operation comes to its end after steps in one ring. -/
theorem exists_all_completed {th : Thread} (h : threads.Reaches (fun _ _ => True) th) :
    (∀ b, ∃ io, ServedBy b th { th with io := io } ∧ ∀ r ∈ (th.io.rings b).inFlight, ∀ c,
      io.heap.get r.addr = some c → c.state.isSubmitted = false) ∧
      ∀ f frames, th.frames = .dropping f :: frames → ∃ b th₁ th',
        ServedBy b th th₁ ∧ threads.next th₁ .dropped = some th' ∧ th'.frames = frames := by
  refine ⟨exists_completed h, fun f frames hframes => ?_⟩
  by_cases hflight : ∃ b, f.handle.addr ∈ (th.io.rings b).inFlight.map Ref.addr
  · obtain ⟨b, hb⟩ := hflight
    obtain ⟨r, hr, haddr⟩ := List.mem_map.mp hb
    obtain ⟨io, hserved, hdone⟩ := exists_completed h b
    obtain ⟨th', hnext⟩ := exists_dropped hframes (haddr ▸ hdone r hr)
    exact ⟨b, _, th', hserved, hnext⟩
  · have hdone : ∀ c, th.io.heap.get f.handle.addr = some c → c.state.isSubmitted = false := by
      have hsubmitted := (inv_of_reaches h).owns.submitted f.handle.addr
      grind [Io.inFlight]
    obtain ⟨th', hnext⟩ := exists_dropped hframes hdone
    exact ⟨false, th, th', ⟨[], nofun, rfl⟩, hnext⟩

/-- A read into a buffer of the task is dropped while the kernel has it. -/
theorem exists_all_completed_drop : ∃ th f, threads.Reaches (fun _ _ => True) th ∧
    th.frames = [.dropping f] ∧ ∃ b th₁ th', ServedBy b th th₁ ∧
      threads.next th₁ .dropped = some th' ∧ th'.frames = [] := by
  have hrun : threads.run threads.start [.enter 0, .create ⟨false, false, .none, false⟩ 7,
      .poll 0 false, .take false, .drop 0] = some _ := rfl
  exact ⟨_, _, System.reaches_run hrun, rfl,
    (exists_all_completed (System.reaches_run hrun)).2 _ _ rfl⟩

end Kimojio.Ring
