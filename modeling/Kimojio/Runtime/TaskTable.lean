import Kimojio.Runtime.TaskLife

/-!
# Kimojio.Runtime.TaskTable

The task table holds the tasks that are not complete (`TableExact`), in the runs
in which a task is spawned only while the table holds fewer than 65535 tasks.
The index of a task is stored in 16 bits, and the 65536th task gets index zero:
its completion panics (`exists_not_tableExact`).
-/

namespace Kimojio.Runtime

/-- The task table holds the tasks that are not complete, `task_count` is its
size, and a task that completes is removed, and no other. -/
structure TableExact (l : Loop) : Prop where
  mem_iff : l.point = .loop ∨ (∃ c, l.point = .polling c) → ∀ i,
    (∃ index, l.state.tasks.get index = some i) ↔
      ∃ task, l.state.task i = some task ∧ task.ready ≠ .complete
  count : (∀ p, l.point ≠ .panicked p) → l.state.taskCount = l.state.tasks.len
  removes : ∀ i, l.point = .completing i → ∃ l', l.next .completed = some l' ∧ l'.point = .loop ∧
    l'.state.completedTasks = l.state.completedTasks ++ [i] ∧
    ∀ index, l'.state.tasks.get index =
      if l.state.tasks.get index = some i then none else l.state.tasks.get index
  no_panic : l.point ≠ .panicked .zeroIndex ∧ l.point ≠ .panicked .taskCount ∧
    l.point ≠ .panicked .table

/-- Whether a task is spawned only while there are fewer than 65535. -/
def fewTasks (l : Loop) : Label → Bool
  | .spawn => l.state.tasks.len < 65535
  | _ => true

/-! ## results -/

/-- A task has a result when it is complete. -/
def Place.Result (p : Place) : Prop :=
  ∀ f state, p.task = some (f, state) → (f = .result ↔ state = .complete)

/-- As long as nothing panics, the complete tasks are those that have a result,
and none of them is polled. -/
structure Results (l : Loop) : Prop where
  result : ∀ i, (l.place i).Result
  polling : ∀ i, l.point = .polling i → ¬ (l.place i).Complete

theorem results_new : Results .new where
  result i f state h := by
    simp [Loop.place, Loop.new, TaskState.new, TaskState.place, TaskState.task] at h
  polling i h := by cases h

theorem Called.result (h : Called p p') (hp : p.Result) : p'.Result := by
  intro f state hp'
  cases h with
  | new =>
    cases hp'
    simp
  | io hstate | cpu hstate =>
    cases hp'
    have := hp _ _ rfl
    rcases hstate with rfl | rfl <;> simp_all
  | abortSuspend | abortReady =>
    cases hp'
    have := hp _ _ rfl
    simp_all

theorem result_of_future {p : Place} (h : p.task = some (.future, state))
    (hstate : state ≠ .complete) : p.Result ∧ ¬ p.Complete := by
  constructor
  · intro f' state' heq
    cases h.symm.trans heq
    simp [hstate]
  · rintro ⟨f', heq⟩
    cases h.symm.trans heq
    exact hstate rfl

theorem results_move (h : Results l) (hmove : LoopMove l l' a)
    (hpoint : ∀ p, l'.point ≠ .panicked p) : Results l' := by
  cases hmove with
  | call hcalls hsame _ =>
    constructor
    · intro i
      rcases hcalls.place i with hi | hi
      · rw [Loop.place, hi]
        exact h.result i
      · exact hi.result (h.result i)
    · intro i hi
      rw [hsame] at hi
      have hnot := h.polling i hi
      rcases hcalls.place i with hi | hi
      · rwa [Loop.place, hi]
      · exact fun hc => hnot (hi.complete_iff.mp hc)
  | stale i _ htaken hstale honly hloop _ =>
    refine ⟨?_, by simp [hloop]⟩
    refine honly.forall (P := fun _ p' => p'.Result) ?_ h.result
    rw [Place.Result, (htaken.stale hstale).1]
    exact h.result i
  | poll i _ _ htask hstate honly hpoll _ =>
    split at hpoll
    · next hf =>
      subst hf
      obtain ⟨hresult, hnot⟩ := result_of_future htask hstate
      refine ⟨honly.forall (P := fun _ p' => p'.Result) hresult h.result, ?_⟩
      intro j hj
      cases hpoll.symm.trans hj
      exact hnot
    · exact absurd hpoll (hpoint _)
  | pending i hpolling htask hplace honly hloop _ =>
    refine ⟨?_, by simp [hloop]⟩
    refine honly.forall (P := fun _ p' => p'.Result) ?_ h.result
    intro f' state' heq
    have hr := h.result i _ _ htask
    rw [hplace, Place.setReady, htask] at heq
    cases heq
    split <;> simp_all
  | alreadyComplete i _ _ _ _ hpanic => exact absurd hpanic (hpoint _)
  | ready i hpolling _ _ honly hplace hcompleting _ =>
    refine ⟨?_, by simp [hcompleting]⟩
    refine honly.forall (P := fun _ p' => p'.Result) ?_ h.result
    intro f' state' heq
    rw [hplace] at heq
    cases heq
    simp
  | completed i _ hsame hend _ =>
    refine ⟨fun j => hsame j ▸ h.result j, ?_⟩
    rcases hend with hend | ⟨p, -, -, hend⟩ <;> simp [hend]

/-! ## the table -/

/-- The table holds task `i` at `index`: it has not returned, or its completion
has not got to the table yet. -/
def Loop.Owns (l : Loop) (index : Index) (i : Nat) : Prop :=
  ∃ taskIndex f, l.state.entry i = some (taskIndex, f) ∧ taskIndex.toNat = index.get ∧
    (f = .future ∨ l.point = .completing i)

/-- The invariant. -/
structure Table (l : Loop) (m : Map Nat) : Prop where
  represents : Represents l.state.tasks m
  value_iff : ∀ index i, m.value index = some i ↔ l.Owns index i
  nonzero : ∀ i taskIndex f, l.state.entry i = some (taskIndex, f) → 0 < taskIndex.toNat
  small : l.state.tasks.data.length ≤ 65535
  count : l.state.taskCount = l.state.tasks.requests
  polling : ∀ i, l.point = .polling i → ∃ taskIndex, l.state.entry i = some (taskIndex, .future)
  completing : ∀ i, l.point = .completing i →
    ∃ taskIndex, l.state.entry i = some (taskIndex, .result)

theorem table_new : Table .new .empty where
  represents := HandleTable.represents_new
  value_iff index i := by
    simp [Map.empty, Loop.Owns, Loop.new, TaskState.new, TaskState.entry, TaskState.task]
  nonzero i taskIndex f h := by
    simp [Loop.new, TaskState.new, TaskState.entry, TaskState.task] at h
  small := Nat.zero_le _
  count := rfl
  polling i h := by cases h
  completing i h := by cases h

section
variable (h : Table l m)
include h

theorem table_same (hsame : SameTable l.state l'.state)
    (hcompleting : ∀ i, l'.point = .completing i ↔ l.point = .completing i)
    (hpolling : ∀ i, l'.point = .polling i →
      ∃ taskIndex, l'.state.entry i = some (taskIndex, .future)) :
    Table l' m where
  represents := by
    rw [hsame.tasks]
    exact h.represents
  value_iff index i := by
    rw [h.value_iff, Loop.Owns, Loop.Owns, hsame.entry, hcompleting]
  nonzero i taskIndex f hentry := h.nonzero i taskIndex f (hsame.entry i ▸ hentry)
  small := by
    rw [hsame.tasks]
    exact h.small
  count := by
    rw [hsame.tasks, hsame.taskCount]
    exact h.count
  polling := hpolling
  completing i hi := by
    rw [hsame.entry]
    exact h.completing i ((hcompleting i).mp hi)

theorem table_insert (hvalue : m.value index = none)
    (htasks : Represents tasks (m.set index (some l.state.heap.length) freed))
    (hindex : index.get ≤ 65535) (hsmall : tasks.data.length ≤ 65535)
    (hrequests : tasks.requests = l.state.tasks.requests + 1) :
    Table { l with state := { l.state with
      heap := l.state.heap ++ [Task.new (UInt16.ofNat index.get)]
      tasks
      taskCount := l.state.taskCount + 1 } } (m.set index (some l.state.heap.length) freed) := by
  have hentry : ∀ j, ({ l.state with
      heap := l.state.heap ++ [Task.new (UInt16.ofNat index.get)]
      tasks
      taskCount := l.state.taskCount + 1 } : TaskState).entry j =
      if j = l.state.heap.length then some (UInt16.ofNat index.get, .future)
      else l.state.entry j := by
    intro j
    simp only [TaskState.entry, TaskState.task, List.getElem?_append]
    split <;> split <;> simp_all [Task.new]
    omega
  have htoNat : (UInt16.ofNat index.get).toNat = index.get := by
    rw [UInt16.toNat_ofNat']
    omega
  have hnone : l.state.entry l.state.heap.length = none := by
    simp [TaskState.entry, TaskState.task]
  constructor
  · exact htasks
  · intro index' i
    unfold Map.set Loop.Owns
    dsimp only
    rw [hentry]
    by_cases hi : i = l.state.heap.length
    · subst hi
      have hold : m.value index' ≠ some l.state.heap.length := by
        rw [Ne, h.value_iff, Loop.Owns, hnone]
        simp
      by_cases hindex' : index' = index
      · subst hindex'
        exact ⟨fun _ => ⟨_, _, if_pos rfl, htoNat, .inl rfl⟩, fun _ => if_pos rfl⟩
      · have hget : index.get ≠ index'.get := fun heq => hindex' (Index.get_inj heq).symm
        simp [hindex', hold, htoNat, hget]
    · rw [if_neg hi]
      refine Iff.trans ?_ (h.value_iff index' i)
      split
      · next hindex' => simp [hindex', hvalue, Ne.symm hi]
      · exact .rfl
  · intro i taskIndex f hi
    rw [hentry] at hi
    split at hi
    · cases hi
      rw [htoNat]
      exact index.pos
    · exact h.nonzero i taskIndex f hi
  · exact hsmall
  · dsimp only
    rw [hrequests, h.count]
  · intro i hi
    obtain ⟨taskIndex, hold⟩ := h.polling i hi
    refine ⟨taskIndex, ?_⟩
    rw [hentry, if_neg]
    · exact hold
    · rintro rfl
      rw [hnone] at hold
      cases hold
  · intro i hi
    obtain ⟨taskIndex, hold⟩ := h.completing i hi
    refine ⟨taskIndex, ?_⟩
    rw [hentry, if_neg]
    · exact hold
    · rintro rfl
      rw [hnone] at hold
      cases hold

theorem table_spawn (hfew : l.state.tasks.len < 65535)
    (hnext : l.update l.state.scheduleNew = some l') : ∃ m', Table l' m' := by
  obtain ⟨s', hs, rfl⟩ := Loop.update_eq_some hnext
  obtain ⟨index, tasks, hinsert, hvalue, -, htasks⟩ :=
    HandleTable.insertFn_represents h.represents fun _ => l.state.heap.length
  have hget := HandleTable.get_of_insertFn hinsert
  have hsmall : tasks.data.length ≤ 65535 := by
    have hlen : l.state.tasks.requests < 65535 := hfew
    have := h.small
    have := HandleTable.length_insertFn h.represents hinsert
    omega
  have hindex : index.get ≤ 65535 := by
    have hlt := (List.getElem?_eq_some_iff.mp (HandleTable.get_eq_some.mp hget)).1
    rw [Index.offset] at hlt
    omega
  have hinserted := table_insert h hvalue htasks hindex hsmall
    (HandleTable.requests_insertFn hinsert)
  unfold TaskState.scheduleNew at hs
  simp only [hinsert, hget, Option.bind_eq_bind, Option.bind_some] at hs
  cases hs
  refine ⟨_, table_same hinserted (.scheduleIoInternal _ _) (fun _ => .rfl) fun i hi => ?_⟩
  obtain ⟨taskIndex, hentry⟩ := hinserted.polling i hi
  exact ⟨taskIndex, ((SameTable.scheduleIoInternal _ _).entry i).trans hentry⟩

theorem table_ready (hpolling : l.point = .polling i)
    (hnext : l.ready i = some l') (hcompleting : l'.point = .completing i) : Table l' m := by
  obtain ⟨taskIndex, hi⟩ := h.polling i hpolling
  obtain ⟨task, htask, hnext⟩ := Option.bind_eq_some_iff.mp hnext
  split at hnext
  · cases hnext
    cases hcompleting
  · cases hnext
    have hentry : ∀ j, ({ l.state with heap := l.state.heap.modify i fun t =>
        { t with activeState := .result } }.setState i .complete).entry j =
        if j = i then some (taskIndex, .result) else l.state.entry j := by
      intro j
      rw [(SameTable.setState _ i .complete).entry]
      unfold TaskState.entry
      rw [TaskState.task_modify]
      split
      · next hj =>
        subst hj
        rw [TaskState.entry, htask] at hi
        obtain ⟨hindex, -⟩ := Prod.mk.inj (Option.some.inj hi)
        rw [htask, ← hindex]
        rfl
      · rfl
    constructor
    · exact h.represents
    · intro index j
      rw [h.value_iff, Loop.Owns, Loop.Owns]
      rw [hentry]
      by_cases hj : j = i
      · subst hj
        rw [hi, if_pos rfl]
        constructor
        · rintro ⟨_, _, ⟨⟩, hget, -⟩
          exact ⟨_, _, rfl, hget, .inr rfl⟩
        · rintro ⟨_, _, ⟨⟩, hget, -⟩
          exact ⟨_, _, rfl, hget, .inl rfl⟩
      · simp [hj, hpolling, Ne.symm hj]
    · intro j taskIndex' f hj
      rw [hentry] at hj
      split at hj
      · cases hj
        exact h.nonzero i _ _ hi
      · exact h.nonzero j _ _ hj
    · exact h.small
    · exact h.count
    · rintro j ⟨⟩
    · rintro j ⟨⟩
      exact ⟨taskIndex, (hentry i).trans (if_pos rfl)⟩

/-- The index of a task that the table holds. -/
theorem Table.index_eq (hi : l.state.entry i = some (taskIndex, f))
    (hvalue : m.value index = some i) : taskIndex.toNat = index.get := by
  obtain ⟨taskIndex', f', hi', hget, -⟩ := (h.value_iff index i).mp hvalue
  cases hi.symm.trans hi'
  exact hget

theorem table_completed (hcompleting : l.point = .completing i) :
    ∃ l' m', l.completed i = some l' ∧ Table l' m' ∧ l'.point = .loop ∧
      l'.state.completedTasks = l.state.completedTasks ++ [i] ∧
      ∀ index, l'.state.tasks.get index =
        if l.state.tasks.get index = some i then none else l.state.tasks.get index := by
  obtain ⟨taskIndex, hi⟩ := h.completing i hcompleting
  obtain ⟨task, htask, hpair⟩ := Option.map_eq_some_iff.mp hi
  obtain ⟨hindex, -⟩ := Prod.mk.inj hpair
  subst hindex
  have hne : task.taskIndex.toNat ≠ 0 := Nat.ne_of_gt (h.nonzero i _ _ hi)
  obtain ⟨index, hindex⟩ :
      ∃ index : Index, index = ⟨task.taskIndex.toNat, Nat.pos_of_ne_zero hne⟩ :=
    ⟨_, rfl⟩
  have hget : index.get = task.taskIndex.toNat := by rw [hindex]
  have howns : m.value index = some i :=
    (h.value_iff index i).mpr ⟨_, _, hi, hget.symm, .inr hcompleting⟩
  have hvalue_iff : ∀ index', m.value index' = some i ↔ index' = index := by
    intro index'
    constructor
    · intro hvalue
      exact Index.get_inj ((h.index_eq hi hvalue).symm.trans hget.symm)
    · rintro rfl
      exact howns
  obtain ⟨hnone, -⟩ | ⟨v, tasks, hvalue, hremove, htasks⟩ :=
    HandleTable.remove_represents h.represents index
  · rw [howns] at hnone
    cases hnone
  · cases howns.symm.trans hvalue
    obtain ⟨hrequests, hlength⟩ := HandleTable.requests_remove hremove
    have hcount : l.state.taskCount ≠ 0 := by
      rw [h.count, hrequests]
      exact Nat.succ_ne_zero _
    have hcompleted : l.completed i = some { l with
        state := { l.state with
          tasks
          completedTasks := l.state.completedTasks ++ [i]
          taskCount := l.state.taskCount - 1
          currentTask := none }
        point := .loop } := by
      unfold Loop.completed
      simp only [htask, Option.bind_eq_bind, Option.bind_some, dif_neg hne, ← hindex, hremove,
        if_neg hcount]
      rfl
    refine ⟨_, _, hcompleted, ⟨htasks, ?_, h.nonzero, ?_, ?_, ?_, ?_⟩, rfl, rfl, ?_⟩
    · intro index' j
      constructor
      · intro hvalue'
        unfold Map.set at hvalue'
        dsimp only at hvalue'
        split at hvalue'
        · cases hvalue'
        · next hindex' =>
          obtain ⟨taskIndex, f, hj, hget', hlive⟩ := (h.value_iff index' j).mp hvalue'
          refine ⟨taskIndex, f, hj, hget', .inl (hlive.resolve_right fun hpoint => ?_)⟩
          cases hcompleting.symm.trans hpoint
          exact hindex' ((hvalue_iff index').mp hvalue')
      · rintro ⟨taskIndex, f, hj, hget', rfl | hpoint⟩
        · have hvalue' := (h.value_iff index' j).mpr ⟨_, _, hj, hget', .inl rfl⟩
          unfold Map.set
          dsimp only
          rw [if_neg]
          · exact hvalue'
          · rintro rfl
            cases howns.symm.trans hvalue'
            cases hi.symm.trans hj
        · cases hpoint
    · dsimp only
      rw [hlength]
      exact h.small
    · dsimp only
      rw [h.count, hrequests]
      rfl
    · rintro j ⟨⟩
    · rintro j ⟨⟩
    · intro index'
      rw [htasks.get_eq, h.represents.get_eq, Map.set]
      simp only [hvalue_iff]

end

theorem entry_of_place {s : TaskState} (h : (s.place i).task = some (f, state)) :
    ∃ taskIndex, s.entry i = some (taskIndex, f) := by
  obtain ⟨task, htask, hpair⟩ := Option.map_eq_some_iff.mp h
  cases hpair
  exact ⟨task.taskIndex, by rw [TaskState.entry, htask]; rfl⟩

theorem table_move (h : Table l m) (hmove : LoopMove l l' a) (hspawn : a ≠ .spawn)
    (hready : a ≠ .ready) (hcompleted : a ≠ .completed) : Table l' m := by
  cases hmove with
  | call _ hpoint _ hsame =>
    have hsame := hsame hspawn
    refine table_same h hsame (fun i => by rw [hpoint]) fun i hi => ?_
    rw [hsame.entry]
    exact h.polling i (hpoint ▸ hi)
  | stale i hloop _ _ _ hpoint _ hsame =>
    exact table_same h hsame (by simp [hloop, hpoint]) (by simp [hpoint])
  | poll i hloop _ htask _ _ hpoint _ hsame =>
    split at hpoint
    · next hf =>
      subst hf
      refine table_same h hsame (by simp [hloop, hpoint]) fun j hj => ?_
      cases hpoint.symm.trans hj
      exact entry_of_place htask
    · exact table_same h hsame (by simp [hloop, hpoint]) (by simp [hpoint])
  | pending i hpolling _ _ _ hpoint _ hsame =>
    exact table_same h hsame (by simp [hpolling, hpoint]) (by simp [hpoint])
  | alreadyComplete | ready => exact absurd rfl hready
  | completed => exact absurd rfl hcompleted

/-! ## every run -/

/-- The invariant of the runs with few tasks. -/
def FewTasks (l : Loop) : Prop :=
  l.point = .panicked .noFuture ∨ (∀ p, l.point ≠ .panicked p) ∧ Results l ∧ ∃ m, Table l m

theorem next_panicked {l : Loop} (h : l.point = .panicked p) (a : Label) : l.next a = none := by
  have hupdate : ∀ s, l.update s = none := fun s => by simp [Loop.update, h]
  cases a <;> simp [Loop.next, Loop.yield, hupdate, h]

theorem ready_point {l l' : Loop} (h : l.ready i = some l') :
    l'.point = .completing i ∨ l'.point = .panicked .alreadyComplete := by
  obtain ⟨task, -, h⟩ := Option.bind_eq_some_iff.mp h
  split at h <;> cases h
  · exact .inr rfl
  · exact .inl rfl

theorem table_next (h : Table l m) (hfew : fewTasks l a = true)
    (hnext : l.next a = some l') (hpanic : ∀ p, l'.point ≠ .panicked p) : ∃ m', Table l' m' := by
  by_cases hspawn : a = .spawn
  · subst hspawn
    exact table_spawn h (of_decide_eq_true hfew) hnext
  by_cases hready : a = .ready
  · subst hready
    rw [Loop.next] at hnext
    split at hnext
    · next hpolling =>
      have hcompleting := (ready_point hnext).resolve_right (hpanic _)
      exact ⟨m, table_ready h hpolling hnext hcompleting⟩
    · cases hnext
  by_cases hcompleted : a = .completed
  · subst hcompleted
    rw [Loop.next] at hnext
    split at hnext
    · next hcompleting =>
      obtain ⟨l'', m', heq, htable, -⟩ := table_completed h hcompleting
      cases heq.symm.trans hnext
      exact ⟨m', htable⟩
    · cases hnext
  exact ⟨m, table_move h (Loop.next_move hnext) hspawn hready hcompleted⟩

/-- The only panic is that of a future that is polled again. -/
theorem panic_next (h : Table l m) (hresults : Results l) (hpoint : ∀ p, l.point ≠ .panicked p)
    (hnext : l.next a = some l') (hpanic : l'.point = .panicked p) : p = .noFuture := by
  cases Loop.next_move hnext with
  | call _ hsame _ => exact absurd (hsame.symm.trans hpanic) (hpoint p)
  | stale _ _ _ _ _ hloop _ | pending _ _ _ _ _ hloop _ =>
    cases hloop.symm.trans hpanic
  | poll i _ _ _ _ _ hpoll _ =>
    split at hpoll <;> cases hpoll.symm.trans hpanic
    rfl
  | alreadyComplete i hpolling htask => exact absurd ⟨_, htask⟩ (hresults.polling i hpolling)
  | ready i _ _ _ _ _ hcompleting _ => cases hcompleting.symm.trans hpanic
  | completed i hcompleting _ _ _ =>
    obtain ⟨l'', m', heq, -, hloop, -⟩ := table_completed h hcompleting
    simp only [Loop.next, hcompleting] at hnext
    cases heq.symm.trans hnext
    cases hloop.symm.trans hpanic

theorem fewTasks_next (h : FewTasks l) (hfew : fewTasks l a = true)
    (hnext : l.next a = some l') : FewTasks l' := by
  rcases h with hpanic | ⟨hpoint, hresults, m, htable⟩
  · rw [next_panicked hpanic] at hnext
    cases hnext
  · by_cases hpanic : ∃ p, l'.point = .panicked p
    · obtain ⟨p, hp⟩ := hpanic
      cases panic_next htable hresults hpoint hnext hp
      exact .inl hp
    · have hnot : ∀ p, l'.point ≠ .panicked p := fun p hp => hpanic ⟨p, hp⟩
      exact .inr ⟨hnot, results_move hresults (Loop.next_move hnext) hnot,
        table_next htable hfew hnext hnot⟩

theorem Results.future_iff (h : Results l) (htask : l.state.task i = some task) :
    task.activeState = .future ↔ task.ready ≠ .complete := by
  obtain ⟨io, cpu, hplace⟩ := TaskState.place_of_task htask
  have hresult := h.result i _ _ (congrArg Place.task hplace)
  rw [Ne, ← hresult]
  cases task.activeState <;> simp

theorem tableExact_of_table (hpoint : ∀ p, l.point ≠ .panicked p) (hresults : Results l)
    (h : Table l m) : TableExact l where
  mem_iff hloop i := by
    have hcompleting : l.point ≠ .completing i := by
      rcases hloop with hloop | ⟨c, hloop⟩ <;> rw [hloop] <;> simp
    constructor
    · rintro ⟨index, hget⟩
      rw [h.represents.get_eq, h.value_iff] at hget
      obtain ⟨taskIndex, f, hi, -, hlive⟩ := hget
      have hfuture := hlive.resolve_right hcompleting
      obtain ⟨task, htask, hpair⟩ := Option.map_eq_some_iff.mp hi
      cases hpair
      exact ⟨task, htask, (hresults.future_iff htask).mp hfuture⟩
    · rintro ⟨task, htask, hready⟩
      have hfuture := (hresults.future_iff htask).mpr hready
      have hi : l.state.entry i = some (task.taskIndex, task.activeState) := by
        rw [TaskState.entry, htask]
        rfl
      refine ⟨⟨task.taskIndex.toNat, h.nonzero i _ _ hi⟩, ?_⟩
      rw [h.represents.get_eq, h.value_iff]
      exact ⟨_, _, hi, rfl, .inl hfuture⟩
  count _ := h.count
  removes i hcompleting := by
    obtain ⟨l', m', hl', -, hloop, hremoved, hget⟩ := table_completed h hcompleting
    refine ⟨l', ?_, hloop, hremoved, hget⟩
    simp only [Loop.next, hcompleting, hl']
  no_panic := ⟨hpoint _, hpoint _, hpoint _⟩

/-- **The task table.** In every run in which a task is spawned only while
there are fewer than 65535, the table holds the tasks that are not complete. -/
theorem tableExact_of_fewTasks {l : Loop}
    (h : eventLoop.Reaches (fun l a => fewTasks l a = true) l) : TableExact l := by
  have hinv : FewTasks l := by
    refine h.invariant ?_ fun _ _ _ => fewTasks_next
    exact .inr ⟨by simp [eventLoop, Loop.new], results_new, .empty, table_new⟩
  rcases hinv with hpanic | ⟨hpoint, hresults, m, htable⟩
  · constructor
    · rintro (hloop | ⟨c, hloop⟩) <;> cases hpanic.symm.trans hloop
    · exact fun hpoint => absurd hpanic (hpoint _)
    · intro i hi
      cases hpanic.symm.trans hi
    · simp [hpanic]
  · exact tableExact_of_table hpoint hresults htable

/-- Two tasks; the first has completed, and the table holds the second. -/
theorem tableExact_one_completed : ∃ l : Loop, l.state.completedTasks = [0] ∧
    l.state.tasks.iter = [(.ofOffset 1, 1)] ∧ TableExact l := by
  have hrun : (eventLoop.restrict fewTasks).run .new
      [.spawn, .spawn, .prepareCohort, .getReady, .ready, .completed] = some _ := rfl
  exact ⟨_, rfl, rfl, tableExact_of_fewTasks (System.Reaches.start.run hrun)⟩

/-! ### too many tasks -/

/-- A task and `k` others that it has spawned, of which `front` with high
priority. -/
def crowd (first : Task) (k n : Nat) (front : List Nat) (currentTask : Option Nat) : TaskState where
  heap := first :: (List.range k).map fun j => Task.new (UInt16.ofNat (j + 2))
  taskCount := k + 1
  lastReadyCpu := false
  currentTask := currentTask
  fillReadyTaskListIo := (List.range n).map fun j => j + 1
  readyTaskListIo := front
  readyTaskListCpu := []
  tasks := ⟨(List.range (k + 1)).map Slot.used, none, k + 1⟩
  completedTasks := []

/-- The first task is polled, and has spawned `k` others. -/
def crowded (k : Nat) : Loop where
  state := crowd ⟨.future, 1, false, .running⟩ k k [] (some 0)
  point := .polling 0
  history := [.polled 0]

theorem next_crowded (k : Nat) : eventLoop.next (crowded k) .spawn = some (crowded (k + 1)) := by
  simp [eventLoop, Loop.next, Loop.update, crowded, crowd, TaskState.scheduleNew,
    HandleTable.insertFn, HandleTable.get, List.range_succ, TaskState.scheduleIoInternal,
    TaskState.highPriority, TaskState.task, Index.ofOffset, Index.offset, -UInt16.ofNat_add]

theorem reaches_crowded (k : Nat) : eventLoop.Reaches (fun _ _ => True) (crowded k) := by
  induction k with
  | zero =>
    have hrun : eventLoop.run .new [.spawn, .prepareCohort, .getReady] = some (crowded 0) := rfl
    exact System.reaches_run hrun
  | succ k ih => exact ih.next trivial (next_crowded k)

/-- One more task is spawned with high priority, and the poll ends. -/
theorem run_crowded (k : Nat) :
    eventLoop.run (crowded k) [.setHighPriority true, .spawn, .pending] =
      some ⟨crowd ⟨.future, 1, false, .suspend⟩ (k + 1) k [k + 1] none, .loop, [.polled 0]⟩ := by
  have hspawn : (crowd ⟨.future, 1, true, .running⟩ k k [] (some 0)).scheduleNew =
      some (crowd ⟨.future, 1, true, .running⟩ (k + 1) k [k + 1] (some 0)) := by
    simp [crowd, TaskState.scheduleNew, HandleTable.insertFn, HandleTable.get, List.range_succ,
      TaskState.scheduleIoInternal, TaskState.highPriority, TaskState.task, Index.ofOffset,
      Index.offset, -UInt16.ofNat_add]
  have hpriority : eventLoop.next (crowded k) (.setHighPriority true) =
      some { crowded k with state := crowd ⟨.future, 1, true, .running⟩ k k [] (some 0) } := rfl
  rw [System.run, hpriority, Option.bind_some, System.run]
  simp only [eventLoop, Loop.next, crowded, Loop.update, hspawn]
  rfl

/-- A new task at the front of the queue is polled, and completes. -/
theorem run_front (hloop : l.point = .loop) (hqueue : l.state.readyTaskListIo = i :: rest)
    (htask : l.state.task i = some (.new taskIndex)) : ∃ l' task,
    eventLoop.run l [.getReady, .ready] = some l' ∧ l'.point = .completing i ∧
    l'.state.task i = some task ∧ task.taskIndex = taskIndex := by
  obtain ⟨s, hs⟩ : ∃ s, s = { l.state with
      readyTaskListIo := rest, lastReadyCpu := false }.setState i .running := ⟨_, rfl⟩
  have hready : l.state.getReady = some (some i, s) := by
    simp [TaskState.getReady, hqueue, htask, Task.new, hs]
  have hrunning : s.task i = some ⟨.future, taskIndex, false, .running⟩ := by
    rw [hs, TaskState.setState, TaskState.task_modify, if_pos rfl]
    exact congrArg (Option.map _) htask
  have hpoll : eventLoop.next l .getReady = some { l with
      state := { s with currentTask := some i }
      point := .polling i
      history := l.history ++ [.polled i] } := by
    simp [eventLoop, Loop.next, hloop, Loop.getReady, hready, Loop.pollTask, hrunning]
  obtain ⟨s', hs'⟩ : ∃ s', s' = { s with currentTask := some i } := ⟨_, rfl⟩
  rw [← hs'] at hpoll
  have hrunning' : s'.task i = some ⟨.future, taskIndex, false, .running⟩ := by
    rw [hs']
    exact hrunning
  refine ⟨{ l with
    state := { s' with heap := s'.heap.modify i fun t =>
      { t with activeState := .result } }.setState i .complete
    point := .completing i
    history := l.history ++ [.polled i] ++ [.completed i] }, ⟨.result, taskIndex, false, .complete⟩,
    ?_, rfl, ?_, rfl⟩
  · rw [System.run, hpoll, Option.bind_some, System.run]
    simp [eventLoop, Loop.next, Loop.ready, hrunning', System.run]
  · rw [TaskState.setState, TaskState.task_modify, if_pos rfl, TaskState.task_modify, if_pos rfl,
      hrunning']
    rfl

/-- A task whose index is zero does not complete. -/
theorem not_tableExact_of_crowded (hk : UInt16.ofNat (k + 2) = 0) :
    ∃ l, eventLoop.Reaches (fun _ _ => True) l ∧ ¬ TableExact l := by
  have hspawned := (reaches_crowded k).run_any (run_crowded k)
  have hlast : (crowd ⟨.future, 1, false, .suspend⟩ (k + 1) k [k + 1] none).task (k + 1) =
      some (.new (UInt16.ofNat (k + 2))) := by
    simp [crowd, TaskState.task, -UInt16.ofNat_add]
  obtain ⟨l, task, hrun, hpoint, htask, hindex⟩ := run_front
    (l := ⟨crowd ⟨.future, 1, false, .suspend⟩ (k + 1) k [k + 1] none, .loop, [.polled 0]⟩)
    rfl rfl hlast
  refine ⟨l, hspawned.run_any hrun, fun h => ?_⟩
  have hzero : task.taskIndex.toNat = 0 := by
    rw [hindex, hk]
    rfl
  obtain ⟨l', hl', hloop, -⟩ := h.removes _ hpoint
  simp only [Loop.next, hpoint, Loop.completed, htask, Option.bind_eq_bind, Option.bind_some,
    dif_pos hzero] at hl'
  cases hl'
  cases hloop

/-- The 65536th task has index zero: its completion panics. -/
theorem exists_not_tableExact : ∃ l, eventLoop.Reaches (fun _ _ => True) l ∧ ¬ TableExact l :=
  not_tableExact_of_crowded (k := 65534) rfl

end Kimojio.Runtime
