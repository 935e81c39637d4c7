import Kimojio.Runtime.Places

/-!
# Kimojio.Runtime.TaskLife

Two invariants of the scheduler over whole runs.

A task completes once and is not polled again (`CompletesOnce`), in the runs in
which no task completes while it stands in the CPU queue: the CPU branch of
`get_ready` does not look for `Complete`.

Between two polls, a task that is not complete is suspended and in no queue, or
it is ready or aborted and in one queue once (`Accounted`), in the runs in which
no poll leaves an aborted task pending and in no queue.
-/

namespace Kimojio.Runtime

/-! ## completion -/

/-- A task completes once; then it stays complete, and is not polled. -/
structure CompletesOnce (l : Loop) : Prop where
  complete_iff : ∀ i, .completed i ∈ l.history ↔
    ∃ task, l.state.task i = some task ∧ task.ready = .complete
  once : ∀ i, l.history.count (.completed i) ≤ 1
  not_polled : ∀ i before after, l.history = before ++ .completed i :: after → .polled i ∉ after
  no_panic : l.point ≠ .panicked .noFuture ∧ l.point ≠ .panicked .alreadyComplete

/-- Whether no task completes while it stands in the CPU queue. -/
def completesOffCpu (l : Loop) : Label → Bool
  | .ready =>
    match l.point with
    | .polling i => !l.state.readyTaskListCpu.contains i
    | _ => true
  | _ => true

/-- The place of a complete task. -/
def Place.Complete (p : Place) : Prop := ∃ f, p.task = some (f, .complete)

theorem complete_place {s : TaskState} :
    (s.place i).Complete ↔ ∃ task, s.task i = some task ∧ task.ready = .complete := by
  unfold Place.Complete TaskState.place
  cases s.task i <;> simp

/-- A task has a result when it is complete, and then it is not in the CPU queue. -/
def Place.Fresh (p : Place) : Prop :=
  ∀ f state, p.task = some (f, state) →
    (f = .result ↔ state = .complete) ∧ (state = .complete → p.cpu = 0)

theorem Called.fresh (h : Called p p') (hp : p.Fresh) : p'.Fresh := by
  cases h with
  | new =>
    rintro _ _ ⟨⟩
    simp
  | io hstate | cpu hstate =>
    rintro _ _ ⟨⟩
    have := hp _ _ rfl
    rcases hstate with rfl | rfl <;> simp_all
  | abortSuspend | abortReady =>
    rintro _ _ ⟨⟩
    have := hp _ _ rfl
    simp_all

theorem Called.complete_iff (h : Called p p') : p'.Complete ↔ p.Complete := by
  unfold Place.Complete
  cases h with
  | io hstate | cpu hstate => rcases hstate with rfl | rfl <;> simp
  | new | abortSuspend | abortReady => simp

/-- No task is polled after it has completed. -/
def Ordered (history : List Event) : Prop :=
  ∀ i before after, history = before ++ .completed i :: after → .polled i ∉ after

theorem ordered_concat (h : Ordered history) (he : ∀ i, e = .polled i → .completed i ∉ history) :
    Ordered (history ++ [e]) := by
  intro i before after heq hmem
  rcases List.eq_nil_or_concat after with rfl | ⟨after, last, rfl⟩
  · cases hmem
  · rw [List.concat_eq_append, ← List.cons_append, ← List.append_assoc] at heq
    obtain ⟨hinit, hlast⟩ := List.append_inj' heq rfl
    cases hlast
    rw [List.concat_eq_append, List.mem_append, List.mem_singleton] at hmem
    rcases hmem with hmem | hmem
    · exact h i before after hinit hmem
    · refine he i hmem.symm ?_
      rw [hinit]
      exact List.mem_append_right _ (.head _)

/-- The invariant. -/
structure Completion (l : Loop) : Prop where
  fresh : ∀ i, (l.place i).Fresh
  polling : ∀ i, l.point = .polling i → ¬ (l.place i).Complete
  complete_iff : ∀ i, .completed i ∈ l.history ↔ (l.place i).Complete
  once : ∀ i, l.history.count (.completed i) ≤ 1
  ordered : Ordered l.history
  no_panic : l.point ≠ .panicked .noFuture ∧ l.point ≠ .panicked .alreadyComplete

theorem completion_new : Completion .new where
  fresh i := by
    intro f state h
    simp [Loop.place, Loop.new, TaskState.new, TaskState.place, TaskState.task] at h
  polling i h := by cases h
  complete_iff i := by
    simp [Place.Complete, Loop.place, Loop.new, TaskState.new, TaskState.place, TaskState.task]
  once i := Nat.zero_le _
  ordered := by
    intro i before after h
    cases before <;> cases h
  no_panic := ⟨by rintro ⟨⟩, by rintro ⟨⟩⟩

/-- The invariant of a step that keeps the history, and the complete tasks. -/
theorem completion_of_history (h : Completion l) (hhistory : l'.history = l.history)
    (hcomplete : ∀ i, (l'.place i).Complete ↔ (l.place i).Complete)
    (hfresh : ∀ i, (l'.place i).Fresh)
    (hpolling : ∀ i, l'.point = .polling i → l.point = .polling i)
    (hpanic : l'.point ≠ .panicked .noFuture ∧ l'.point ≠ .panicked .alreadyComplete) :
    Completion l' where
  fresh := hfresh
  polling i hi := fun hc => h.polling i (hpolling i hi) ((hcomplete i).mp hc)
  complete_iff i := by rw [hhistory, h.complete_iff, hcomplete]
  once i := by
    rw [hhistory]
    exact h.once i
  ordered := by
    rw [hhistory]
    exact h.ordered
  no_panic := hpanic

/-- A complete task that is taken is left as it is. -/
theorem Taken.stale (h : Taken p p') (hp' : p'.task = some (f, .complete)) :
    p'.task = p.task ∧ p'.cpu = p.cpu := by
  cases h with
  | ioKept => exact ⟨rfl, rfl⟩
  | io | cpu | cpuAborted => cases hp'

/-- A task that is taken to be polled is not complete. -/
theorem Taken.fresh (h : Taken p p') (hp : p.Fresh) (hp' : p'.task = some (f, state))
    (hstate : state ≠ .complete) : f = .future ∧ ¬ p.Complete ∧ ¬ p'.Complete ∧ p'.Fresh := by
  have hfuture : f ≠ .result → f = .future := by cases f <;> simp
  cases h with
  | io _ | ioKept | cpuAborted =>
    cases hp'
    have := hp _ _ rfl
    simp_all [Place.Complete, Place.Fresh]
  | @cpu state =>
    cases hp'
    have := hp _ _ rfl
    simp_all [Place.Complete, Place.Fresh]

/-- What holds of the place that changes holds of all. -/
theorem OnlyPlace.forall {P : Place → Place → Prop} (h : OnlyPlace i l l')
    (hi : P (l.place i) (l'.place i)) (hrefl : ∀ j, P (l.place j) (l.place j)) (j : Nat) :
    P (l.place j) (l'.place j) := by
  by_cases hj : j = i
  · exact hj ▸ hi
  · rw [h j hj]
    exact hrefl j

section
variable (h : Completion l)
include h

theorem completion_call (hcalls : Calls l.state l'.state)
    (hpoint : l'.point = l.point) (hhistory : l'.history = l.history) : Completion l' := by
  have hplaces : ∀ i, l'.place i = l.place i ∨ Called (l.place i) (l'.place i) := hcalls.place
  refine completion_of_history h hhistory (fun i => ?_) (fun i => ?_) (fun i hi => hpoint ▸ hi)
    (hpoint ▸ h.no_panic)
  · rcases hplaces i with hi | hi
    · rw [hi]
    · exact hi.complete_iff
  · rcases hplaces i with hi | hi
    · rw [hi]
      exact h.fresh i
    · exact hi.fresh (h.fresh i)

theorem completion_stale (htaken : Taken (l.place i) (l'.place i))
    (hstale : (l'.place i).task = some (f, .complete)) (honly : OnlyPlace i l l')
    (hpoint : l'.point = .loop) (hhistory : l'.history = l.history) : Completion l' := by
  obtain ⟨htask, hcpu⟩ := htaken.stale hstale
  have hcomplete : (l'.place i).Complete ↔ (l.place i).Complete := by
    rw [Place.Complete, Place.Complete, htask]
  have hfresh : (l'.place i).Fresh := by
    rw [Place.Fresh, htask, hcpu]
    exact h.fresh i
  refine completion_of_history h hhistory ?_ ?_ ?_ ?_
  · exact honly.forall (P := fun p p' => p'.Complete ↔ p.Complete) hcomplete fun _ => .rfl
  · exact honly.forall (P := fun _ p' => p'.Fresh) hfresh h.fresh
  · simp [hpoint]
  · simp [hpoint]

/-- A task that is polled is not complete. -/
theorem completion_poll (htaken : Taken (l.place i) (l'.place i))
    (htask : (l'.place i).task = some (f, state)) (hstate : state ≠ .complete)
    (honly : OnlyPlace i l l')
    (hpoint : l'.point = if f = .future then .polling i else .panicked .noFuture)
    (hhistory : l'.history = l.history ++ [.polled i]) : Completion l' := by
  obtain ⟨rfl, hbefore, hafter, hfresh⟩ := htaken.fresh (h.fresh i) htask hstate
  have hcomplete := honly.forall (P := fun p p' => p'.Complete ↔ p.Complete)
    (by simp [hbefore, hafter]) fun _ => .rfl
  constructor
  · exact honly.forall (P := fun _ p' => p'.Fresh) hfresh h.fresh
  · intro j hj
    rw [hpoint] at hj
    cases hj
    exact hafter
  · intro j
    rw [hhistory, hcomplete, ← h.complete_iff]
    simp
  · intro j
    simpa [hhistory, List.count_append, List.count_singleton] using h.once j
  · rw [hhistory]
    refine ordered_concat h.ordered ?_
    rintro _ ⟨⟩ hmem
    exact hbefore ((h.complete_iff i).mp hmem)
  · simp [hpoint]

theorem completion_pending (hpolling : l.point = .polling i)
    (htask : (l.place i).task = some (f, state))
    (hplace : l'.place i = (l.place i).setReady (if state = .running then .suspend else state))
    (honly : OnlyPlace i l l') (hpoint : l'.point = .loop) (hhistory : l'.history = l.history) :
    Completion l' := by
  have hstate : state ≠ .complete := fun hc => h.polling i hpolling ⟨f, hc ▸ htask⟩
  have hresult : f ≠ .result := fun hf => hstate ((h.fresh i f state htask).1.mp hf)
  have hsuspend : (if state = .running then .suspend else state) ≠ TaskReadyState.complete := by
    split <;> simp [hstate]
  have htask' : (l'.place i).task = some (f, if state = .running then .suspend else state) := by
    rw [hplace, Place.setReady, htask]
    rfl
  refine completion_of_history h hhistory ?_ ?_ ?_ ?_
  · refine honly.forall (P := fun p p' => p'.Complete ↔ p.Complete) ?_ fun _ => .rfl
    simp [Place.Complete, htask, htask', hstate, hsuspend]
  · refine honly.forall (P := fun _ p' => p'.Fresh) ?_ h.fresh
    intro f' state' heq
    cases htask'.symm.trans heq
    simp [hresult, hsuspend]
  · simp [hpoint]
  · simp [hpoint]

theorem completion_ready (hpolling : l.point = .polling i)
    (hcpu : (l.place i).cpu = 0) (honly : OnlyPlace i l l')
    (hplace : l'.place i = { l.place i with task := some (.result, .complete) })
    (hpoint : l'.point = .completing i) (hhistory : l'.history = l.history ++ [.completed i]) :
    Completion l' := by
  have hnot : .completed i ∉ l.history := fun hmem =>
    h.polling i hpolling ((h.complete_iff i).mp hmem)
  have htask : (l'.place i).task = some (.result, .complete) := by rw [hplace]
  constructor
  · refine honly.forall (P := fun _ p' => p'.Fresh) ?_ h.fresh
    intro f' state' heq
    cases htask.symm.trans heq
    simp [hplace, hcpu]
  · simp [hpoint]
  · intro j
    rw [hhistory, List.mem_append, List.mem_singleton, h.complete_iff]
    by_cases hj : j = i
    · subst hj
      simp [Place.Complete, htask]
    · rw [honly j hj]
      simp [hj]
  · intro j
    by_cases hj : j = i
    · subst hj
      simp [hhistory, List.count_append, List.count_eq_zero.mpr hnot]
    · simpa [hhistory, List.count_append, List.count_singleton, Ne.symm hj] using h.once j
  · rw [hhistory]
    refine ordered_concat h.ordered ?_
    rintro _ ⟨⟩
  · simp [hpoint]

theorem completion_move (hmove : LoopMove l l' a)
    (hcpu : completesOffCpu l a = true) : Completion l' := by
  cases hmove with
  | call hcalls hpoint hhistory => exact completion_call h hcalls hpoint hhistory
  | stale i _ htaken hstale honly hpoint hhistory =>
    exact completion_stale h htaken hstale honly hpoint hhistory
  | poll i _ htaken htask hstate honly hpoint hhistory =>
    exact completion_poll h htaken htask hstate honly hpoint hhistory
  | pending i hpolling htask hplace honly hpoint hhistory =>
    exact completion_pending h hpolling htask hplace honly hpoint hhistory
  | alreadyComplete i hpolling htask => exact absurd ⟨_, htask⟩ (h.polling i hpolling)
  | ready i hpolling _ _ honly hplace hpoint hhistory =>
    have hcpu' : i ∉ l.state.readyTaskListCpu := by
      simpa [completesOffCpu, hpolling] using hcpu
    exact completion_ready h hpolling (List.count_eq_zero.mpr hcpu') honly hplace hpoint hhistory
  | completed i _ hsame hpoint hhistory =>
    refine completion_of_history h hhistory (fun j => by rw [hsame]) (fun j => ?_) ?_ ?_
    · rw [hsame]
      exact h.fresh j
    · rcases hpoint with hpoint | ⟨p, -, -, hpoint⟩ <;> simp [hpoint]
    · rcases hpoint with hpoint | ⟨p, hfuture, hcomplete, hpoint⟩
      · simp [hpoint]
      · simp [hpoint, hfuture, hcomplete]

end

/-- **Completion.** In every run in which no task completes while it stands in
the CPU queue, a task completes once, stays complete, and is not polled again. -/
theorem completesOnce_of_completesOffCpu {l : Loop}
    (h : eventLoop.Reaches (fun l a => completesOffCpu l a = true) l) : CompletesOnce l := by
  have hinv : Completion l := h.invariant completion_new fun _ _ _ hl ha hnext =>
    completion_move hl (Loop.next_move hnext) ha
  exact ⟨fun i => (hinv.complete_iff i).trans complete_place, hinv.once, hinv.ordered,
    hinv.no_panic⟩

/-- A task that yields, and completes in a later poll. -/
theorem completesOnce_after_yield : ∃ l, l.history = [.polled 0, .polled 0, .completed 0] ∧
    CompletesOnce l := by
  have hrun : (eventLoop.restrict completesOffCpu).run .new
      [.spawn, .prepareCohort, .getReady, .yieldCpu, .pending, .getReady, .ready, .completed] =
      some _ := rfl
  exact ⟨_, rfl, completesOnce_of_completesOffCpu (System.Reaches.start.run hrun)⟩

/-- A task that yields to the CPU queue and completes in the same poll is taken
from that queue, and polled again. -/
theorem exists_not_completesOnce :
    ∃ l, eventLoop.Reaches (fun _ _ => True) l ∧ ¬ CompletesOnce l := by
  have hrun : eventLoop.run .new
      [.spawn, .prepareCohort, .getReady, .yieldCpu, .ready, .completed, .getReady] = some _ := rfl
  exact ⟨_, System.reaches_run hrun, fun h => h.not_polled 0 [.polled 0] [.polled 0] rfl (.head _)⟩

/-! ## the queues -/

/-- The three ready queues. -/
def TaskState.queued (s : TaskState) : List Nat :=
  s.fillReadyTaskListIo ++ s.readyTaskListIo ++ s.readyTaskListCpu

/-- A task that is not complete: it is suspended and in no queue, and a wake
puts it in one; or it is ready or aborted, and in one queue once. -/
def Accounted (s : TaskState) (i : Nat) (task : Task) : Prop :=
  (task.ready = .suspend ∧ i ∉ s.queued ∧ ∃ s', s.scheduleIo i = some s' ∧ i ∈ s'.queued) ∨
    ((task.ready = .ready ∨ task.ready = .aborted) ∧ s.queued.count i = 1)

/-- Whether no poll leaves an aborted task pending and in no queue. -/
def abortedEnds (l : Loop) : Label → Bool
  | .pending =>
    match l.point with
    | .polling i =>
      match l.state.task i with
      | some task => task.ready ≠ .aborted || l.state.queued.contains i
      | none => true
    | _ => true
  | _ => true

/-- How often the task is in a queue. -/
def Place.queued (p : Place) : Nat := p.io + p.cpu

theorem count_queued (s : TaskState) (i : Nat) : s.queued.count i = (s.place i).queued := by
  simp only [TaskState.queued, Place.queued, TaskState.place, List.count_append]

/-- The place of a task that is not being polled. -/
def Place.Settled (p : Place) : Prop :=
  match p.task with
  | none => p.queued = 0
  | some (f, .suspend) => f = .future ∧ p.queued = 0
  | some (f, .ready) | some (f, .aborted) => f = .future ∧ p.queued = 1
  | some (f, .complete) => f = .result
  | some (_, .running) | some (_, .unknown) => False

/-- The place of the task that is being polled. -/
def Place.Active (p : Place) : Prop :=
  match p.task with
  | some (f, .running) => f = .future ∧ p.queued = 0
  | some (f, .ready) => f = .future ∧ p.queued = 1
  | some (f, .aborted) => f = .future ∧ p.queued ≤ 1
  | _ => False

theorem Called.settled (h : Called p p') (hp : p.Settled) : p'.Settled := by
  cases h with
  | io hstate | cpu hstate =>
    rcases hstate with rfl | rfl <;> simp_all [Place.Settled, Place.queued]
  | new | abortSuspend | abortReady => simp_all [Place.Settled, Place.queued]

theorem Called.active (h : Called p p') (hp : p.Active) : p'.Active := by
  cases h with
  | io hstate | cpu hstate =>
    rcases hstate with rfl | rfl <;> simp_all [Place.Active, Place.queued]
  | new | abortSuspend => simp_all [Place.Active]
  | abortReady => exact ⟨hp.1, Nat.le_of_eq hp.2⟩

theorem Taken.active (h : Taken p p') (hp : p.Settled) (hp' : p'.task = some (.future, state))
    (hstate : state ≠ .complete) : p'.Active := by
  cases h with
  | @io state₀ f io cpu | @cpu state₀ f io cpu =>
    cases hp'
    cases state₀ <;> simp_all [Place.Settled, Place.Active, Place.queued]
    omega
  | @ioKept state₀ f io cpu haborted =>
    cases hp'
    rcases haborted with rfl | rfl <;> simp_all [Place.Settled, Place.Active, Place.queued]
    omega
  | cpuAborted =>
    cases hp'
    simp_all [Place.Settled, Place.Active, Place.queued]
    omega

theorem Taken.settled (h : Taken p p') (hp : p.Settled) (hp' : p'.task = some (f, .complete)) :
    p'.Settled := by
  cases h with
  | ioKept =>
    cases hp'
    exact hp
  | io | cpu | cpuAborted => cases hp'

/-- A poll that is pending, of a task that is not aborted and in no queue. -/
theorem Place.Active.setReady {p : Place} (h : p.Active) (hp : p.task = some (f, state))
    (hstate : state = .aborted → p.queued ≠ 0) :
    (p.setReady (if state = .running then .suspend else state)).Settled := by
  obtain ⟨task, io, cpu⟩ := p
  cases hp
  cases state <;> simp_all [Place.Settled, Place.Active, Place.queued, Place.setReady]
  omega

/-- The invariant, by the point of the loop. -/
def Queues (l : Loop) : Prop :=
  match l.point with
  | .loop => ∀ i, (l.place i).Settled
  | .polling c => (∀ i, i ≠ c → (l.place i).Settled) ∧ (l.place c).Active
  | .completing c => (∀ i, i ≠ c → (l.place i).Settled) ∧
    (l.place c).task = some (.result, .complete)
  | .panicked _ => True

theorem queues_new : Queues .new := by
  intro i
  rfl

theorem queues_call (h : Queues l) (hcalls : Calls l.state l'.state) (hpoint : l'.point = l.point) :
    Queues l' := by
  have hkeeps : ∀ (P : Place → Prop), (∀ p p', Called p p' → P p → P p') →
      ∀ i, P (l.place i) → P (l'.place i) := by
    intro P hP i hi
    rcases hcalls.place i with hsame | hcalled
    · rw [Loop.place, hsame]
      exact hi
    · exact hP _ _ hcalled hi
  have hsettled := hkeeps Place.Settled fun _ _ => Called.settled
  have hactive := hkeeps Place.Active fun _ _ => Called.active
  have hcomplete := hkeeps (fun p => p.task = some (.result, .complete)) fun p p' hcalled hp => by
    cases hcalled with
    | io hstate | cpu hstate => rcases hstate with rfl | rfl <;> cases hp
    | new | abortSuspend | abortReady => cases hp
  unfold Queues at h ⊢
  rw [hpoint]
  split at h
  · exact fun i => hsettled i (h i)
  · exact ⟨fun i hi => hsettled i (h.1 i hi), hactive _ h.2⟩
  · exact ⟨fun i hi => hsettled i (h.1 i hi), hcomplete _ h.2⟩
  · trivial

theorem queued_of_abortedEnds (hpolling : l.point = .polling i)
    (htask : (l.place i).task = some (f, state)) (hends : abortedEnds l .pending = true)
    (hstate : state = .aborted) : (l.place i).queued ≠ 0 := by
  obtain ⟨task, hi, hpair⟩ := Option.map_eq_some_iff.mp htask
  obtain ⟨-, hready⟩ := Prod.mk.inj hpair
  have hmem : i ∈ l.state.queued := by
    simpa [abortedEnds, hpolling, hi, hready, hstate] using hends
  rw [Loop.place, ← count_queued]
  exact Nat.ne_of_gt (List.count_pos_iff.mpr hmem)

theorem queues_move (h : Queues l) (hmove : LoopMove l l' a)
    (hends : abortedEnds l a = true) : Queues l' := by
  cases hmove with
  | call hcalls hpoint _ => exact queues_call h hcalls hpoint
  | stale i hloop htaken hstale honly hpoint _ =>
    simp only [Queues, hloop] at h
    simp only [Queues, hpoint]
    exact honly.forall (P := fun _ p' => p'.Settled) (htaken.settled (h i) hstale) h
  | poll i hloop htaken htask hstate honly hpoint _ =>
    simp only [Queues, hloop] at h
    split at hpoint
    · next hf =>
      subst hf
      simp only [Queues, hpoint]
      refine ⟨fun j hj => ?_, htaken.active (h i) htask hstate⟩
      rw [honly j hj]
      exact h j
    · simp only [Queues, hpoint]
  | pending i hpolling htask hplace honly hpoint _ =>
    simp only [Queues, hpolling] at h
    simp only [Queues, hpoint]
    have hqueued := queued_of_abortedEnds hpolling htask hends
    have hsettled : (l'.place i).Settled := hplace ▸ h.2.setReady htask hqueued
    intro j
    by_cases hj : j = i
    · exact hj ▸ hsettled
    · rw [honly j hj]
      exact h.1 j hj
  | alreadyComplete i _ _ _ _ hpoint => simp only [Queues, hpoint]
  | ready i hpolling _ _ honly hplace hpoint _ =>
    simp only [Queues, hpolling] at h
    simp only [Queues, hpoint]
    refine ⟨fun j hj => ?_, by rw [hplace]⟩
    rw [honly j hj]
    exact h.1 j hj
  | completed i hcompleting hsame hpoint _ =>
    simp only [Queues, hcompleting] at h
    rcases hpoint with hpoint | ⟨p, -, -, hpoint⟩
    · simp only [Queues, hpoint]
      intro j
      rw [hsame]
      by_cases hj : j = i
      · subst hj
        simp only [Place.Settled, h.2]
      · exact h.1 j hj
    · simp only [Queues, hpoint]

theorem accounted_of_settled (h : (s.place i).Settled) (htask : s.task i = some task)
    (hcomplete : task.ready ≠ .complete) : Accounted s i task := by
  have hplace : (s.place i).task = some (task.activeState, task.ready) := by
    rw [TaskState.place, htask]
    rfl
  unfold Accounted
  rw [count_queued]
  cases hready : task.ready with
  | complete => exact absurd hready hcomplete
  | suspend =>
    simp only [Place.Settled, hplace, hready] at h
    refine .inl ⟨rfl, ?_, ?_⟩
    · rw [← List.count_eq_zero, count_queued]
      exact h.2
    · refine ⟨(s.setState i .ready).scheduleIoInternal i, ?_, ?_⟩
      · simp [TaskState.scheduleIo, htask, hready]
      rw [← List.count_pos_iff, count_queued, TaskState.place_scheduleIoInternal, if_pos rfl]
      simp only [Place.queued]
      omega
  | ready | aborted =>
    simp only [Place.Settled, hplace, hready] at h
    exact .inr ⟨by simp, h.2⟩
  | running | unknown => simp only [Place.Settled, hplace, hready] at h

/-- **No task is lost.** In every run in which no poll leaves an aborted task
pending and in no queue, between two polls every task that is not complete can
be woken, or will be polled. -/
theorem accounted_of_abortedEnds {l : Loop}
    (h : eventLoop.Reaches (fun l a => abortedEnds l a = true) l) (hloop : l.point = .loop) :
    ∀ i task, l.state.task i = some task → task.ready ≠ .complete → Accounted l.state i task := by
  have hinv : Queues l := h.invariant queues_new fun _ _ _ hl ha hnext =>
    queues_move hl (Loop.next_move hnext) ha
  simp only [Queues, hloop] at hinv
  exact fun i task => accounted_of_settled (hinv i)

/-- One task is suspended, another is aborted and will be polled. -/
theorem accounted_suspended_aborted :
    ∃ l : Loop, l.state.heap.map Task.ready = [.suspend, .aborted] ∧
    ∀ i task, l.state.task i = some task → task.ready ≠ .complete → Accounted l.state i task := by
  have hrun : (eventLoop.restrict abortedEnds).run .new
      [.spawn, .spawn, .prepareCohort, .getReady, .pending, .getReady, .pending, .abort 1] =
      some _ := rfl
  exact ⟨_, rfl, accounted_of_abortedEnds (System.Reaches.start.run hrun) rfl⟩

/-- A task is aborted while it is suspended, and its next poll is pending, as
that of a virtual sleep. It is still aborted, it is in no queue, and no wake
puts it in one. -/
theorem exists_not_accounted : ∃ l task, eventLoop.Reaches (fun _ _ => True) l ∧ l.point = .loop ∧
    l.state.task 0 = some task ∧ task.ready ≠ .complete ∧ ¬ Accounted l.state 0 task := by
  have hrun : eventLoop.run .new
      [.spawn, .prepareCohort, .getReady, .pending, .abort 0, .prepareCohort, .getReady, .pending] =
      some _ := rfl
  refine ⟨_, _, System.reaches_run hrun, rfl, rfl, by decide, ?_⟩
  rintro (⟨hready, -⟩ | ⟨-, hcount⟩)
  · cases hready
  · cases hcount

end Kimojio.Runtime
