import Kimojio.Sync.AsyncSemaphore

/-!
# Kimojio.Sync.TaskPool

`TaskPool` bounds the tasks that it spawns by a semaphore: `spawn_task`
acquires a token, and a guard inside the spawned task releases it.

The guard is made when the task is polled for the first time, so that a task
that is dropped before keeps its token for ever. When a task returns, panics
or is aborted, its guard is dropped within the poll that ends it, and nothing
else runs before the task is complete.
-/

namespace Kimojio.Sync

structure TaskPool where
  semaphore : AsyncSemaphore

def TaskPool.new (maxTasks : UInt64) : TaskPool := ⟨.new maxTasks⟩

/-- A task of the pool: spawned and never polled, polled, complete, or dropped
with the runtime. -/
inductive PoolTask where
  | spawned
  | started
  | complete
  | dropped
  deriving DecidableEq, Repr

/-- The task exists and is not complete. -/
def PoolTask.active : PoolTask → Bool
  | .spawned | .started => true
  | .complete | .dropped => false

/-- A pool in use: the pending calls of `spawn_task`, which wait for their
token, and the tasks. -/
structure Pooling where
  pool : TaskPool
  calls : List AcquireFuture
  tasks : List PoolTask

/-- A poll of a task ends it by a return or by a panic, or leaves it pending. -/
inductive PoolLabel where
  | spawnTask
  | pollCall (call : Nat) (aborted : Bool) (fuel : Nat)
  | dropCall (call : Nat)
  | cancelWait (waitData : Nat)
  | pollTask (task : Nat) (ends : Bool)
  | dropTask (task : Nat)
  deriving DecidableEq, Repr

namespace Pooling

/-- `semaphore.release()` in the guard; a panic in it changes nothing. -/
def release (overflowChecks : Bool) (p : Pooling) : TaskPool :=
  match p.pool.semaphore.release overflowChecks with
  | some sem => ⟨sem⟩
  | none => p.pool

/-- The rest of `spawn_task` after a poll of its `acquire`. -/
def acquired (p : Pooling) (i : Nat) : AsyncSemaphore × AcquirePoll → Pooling
  | (sem, .pending w) => { p with pool := ⟨sem⟩, calls := p.calls.set i (.acquire (some w)) }
  | (sem, .acquired) =>
    { pool := ⟨sem⟩, calls := p.calls.set i .done, tasks := p.tasks ++ [.spawned] }
  | (sem, .canceled) => { p with pool := ⟨sem⟩, calls := p.calls.set i .done }
  | (sem, .panicked) => { p with pool := ⟨sem⟩, calls := p.calls.set i .done }

def next (overflowChecks : Bool) (p : Pooling) : PoolLabel → Option Pooling
  | .spawnTask => some { p with calls := p.calls ++ [.acquire none] }
  | .pollCall i aborted fuel => do
    let f ← p.calls[i]?
    let r ← f.poll aborted fuel p.pool.semaphore
    some (p.acquired i r)
  | .dropCall i => do
    let f ← p.calls[i]?
    some { p with pool := ⟨f.drop p.pool.semaphore⟩, calls := p.calls.set i .done }
  | .cancelWait d =>
    let sem := p.pool.semaphore
    some { p with pool := ⟨{ sem with available := sem.available.cancelWait d }⟩ }
  | .pollTask t ends => do
    let task ← p.tasks[t]?
    if !task.active then none
    else if ends then
      some { p with pool := p.release overflowChecks, tasks := p.tasks.set t .complete }
    else some { p with tasks := p.tasks.set t .started }
  | .dropTask t => do
    match ← p.tasks[t]? with
    | .spawned => some { p with tasks := p.tasks.set t .dropped }
    | .started =>
      some { p with pool := p.release overflowChecks, tasks := p.tasks.set t .dropped }
    | _ => none

/-- The tasks of the pool that exist and are not complete. -/
def active (p : Pooling) : Nat := p.tasks.countP PoolTask.active

end Pooling

def pooling (overflowChecks : Bool) (maxTasks : UInt64) : System Pooling PoolLabel where
  start := ⟨.new maxTasks, [], []⟩
  next := Pooling.next overflowChecks

/-! ## The tokens of a poll -/

namespace AsyncSemaphore

/-- A poll takes a token exactly when it acquires. -/
def Spends (tokens : UInt64) : AsyncSemaphore × AcquirePoll → Prop
  | (sem, .acquired) => sem.tokens.toNat + 1 = tokens.toNat
  | (sem, _) => sem.tokens = tokens

theorem wait_spends {sem : AsyncSemaphore}
    (hcont : ∀ e, Returns (Spends sem.tokens) (cont { sem with available := e })) :
    Returns (Spends sem.tokens) (sem.wait aborted cont w) := by
  exact await_any (fun _ _ => .some rfl) hcont (fun _ => .some rfl) (fun _ => .some rfl)

theorem acquireLoop_spends (fuel : Nat) (sem : AsyncSemaphore) :
    Returns (Spends sem.tokens) (acquireLoop aborted fuel sem) := by
  induction fuel generalizing sem with
  | zero => exact .none
  | succ fuel ih =>
    unfold acquireLoop
    split
    · exact wait_spends fun e => ih { sem with available := e }
    · next hpos => exact .some (toNat_pred hpos)

end AsyncSemaphore

theorem AcquireFuture.poll_spends {f : AcquireFuture} :
    Returns (AsyncSemaphore.Spends sem.tokens) (f.poll aborted fuel sem) := by
  match f with
  | .acquire none => exact AsyncSemaphore.acquireLoop_spends fuel sem
  | .acquire (some w) =>
    exact AsyncSemaphore.wait_spends fun e =>
      AsyncSemaphore.acquireLoop_spends fuel { sem with available := e }
  | .done => exact .none

/-! ## Every run -/

namespace Pooling

/-- Every active task has taken one of the tokens. -/
def Bounded (maxTasks : UInt64) (p : Pooling) : Prop :=
  p.pool.semaphore.tokens.toNat + p.active ≤ maxTasks.toNat

variable {maxTasks : UInt64} {p : Pooling}

/-- A guard that is dropped gives the token of an active task back. -/
theorem Bounded.release (h : p.Bounded maxTasks) (ht : p.tasks[t]? = some task)
    (hactive : task.active = true) (hended : task'.active = false) :
    Bounded maxTasks
      { p with pool := p.release overflowChecks, tasks := p.tasks.set t task' } := by
  unfold Bounded active at h ⊢
  have hset := countP_set_toNat ht PoolTask.active task'
  simp only [hactive, hended, Bool.toNat_true, Bool.toNat_false] at hset
  have hlt := maxTasks.toNat_lt
  -- the token that is given back is missing, so the sum cannot overflow
  have hmax : p.pool.semaphore.tokens ≠ UInt64.ofNat (2 ^ 64 - 1) := by
    intro hmax
    have hmax : p.pool.semaphore.tokens.toNat = 2 ^ 64 - 1 := by
      rw [hmax]
      rfl
    omega
  have hsucc := toNat_succ hmax
  unfold Pooling.release AsyncSemaphore.release
  simp only [hmax, decide_false, Bool.and_false, Bool.false_eq_true, if_false]
  omega

theorem Bounded.acquired (h : p.Bounded maxTasks)
    (hr : AsyncSemaphore.Spends p.pool.semaphore.tokens r) : (p.acquired i r).Bounded maxTasks := by
  obtain ⟨sem, poll⟩ := r
  unfold Bounded active at h ⊢
  cases poll with
  | acquired =>
    have hspends : sem.tokens.toNat + 1 = p.pool.semaphore.tokens.toNat := hr
    simp only [Pooling.acquired, List.countP_append, List.countP_singleton, PoolTask.active,
      if_true]
    omega
  | pending | canceled | panicked => exact (show sem.tokens = _ from hr) ▸ h

theorem Bounded.next (h : p.Bounded maxTasks) (hp : p.next overflowChecks a = some p') :
    p'.Bounded maxTasks := by
  cases a with
  | spawnTask | cancelWait =>
    cases hp
    exact h
  | pollCall i aborted fuel =>
    obtain ⟨f, hf, hp⟩ := Option.bind_eq_some_iff.mp hp
    obtain ⟨r, hr, hp⟩ := Option.bind_eq_some_iff.mp hp
    cases hp
    exact h.acquired (AcquireFuture.poll_spends r hr)
  | dropCall i =>
    obtain ⟨f, hf, hp⟩ := Option.bind_eq_some_iff.mp hp
    cases hp
    exact h
  | pollTask t ends =>
    obtain ⟨task, ht, hp⟩ := Option.bind_eq_some_iff.mp hp
    cases hactive : task.active with
    | false =>
      rw [hactive] at hp
      cases hp
    | true =>
      rw [hactive] at hp
      cases ends with
      | true =>
        cases hp
        exact h.release ht hactive rfl
      | false =>
        cases hp
        have hset := countP_set_toNat ht PoolTask.active .started
        rw [hactive] at hset
        unfold Bounded active at h ⊢
        have heq := Nat.add_right_cancel hset
        rw [heq]
        exact h
  | dropTask t =>
    obtain ⟨task, ht, hp⟩ := Option.bind_eq_some_iff.mp hp
    cases task with
    | spawned =>
      cases hp
      have hset := countP_set_toNat ht PoolTask.active .dropped
      simp only [PoolTask.active, Bool.toNat_true, Bool.toNat_false] at hset
      unfold Bounded active at h ⊢
      dsimp only
      omega
    | started =>
      cases hp
      exact h.release ht rfl rfl
    | complete | dropped => cases hp

theorem bounded_of_reaches (h : (pooling overflowChecks maxTasks).Reaches (fun _ _ => True) p) :
    p.Bounded maxTasks := by
  refine h.invariant (P := Bounded maxTasks) ?_ fun s a s' hinv _ hs => hinv.next hs
  exact Nat.le_refl _

end Pooling

/-- **Semaphores and pools.** A semaphore is safe in every run in which no
`release` overflows; a pool never overflows its semaphore, and never has more
active tasks than its size. -/
theorem semaphore_safe_and_pool_bounded (overflowChecks : Bool) (count : UInt64) :
    (∀ s : Semaphoring, (semaphoring overflowChecks count).Reaches
        (fun s a => Semaphoring.releaseFits overflowChecks s a = true) s → s.Safe count) ∧
    ∀ p : Pooling, (pooling overflowChecks count).Reaches (fun _ _ => True) p →
      p.active ≤ count.toNat := by
  constructor
  · intro s h
    exact Semaphoring.safe_of_reaches h
  · intro p h
    exact Nat.le_trans (Nat.le_add_left ..) (Pooling.bounded_of_reaches h)

/-- Four futures wait, two tokens are released and one of them is taken by the
third future, of which the entry stays linked; and a pool of one runs its second
task after the first has ended. -/
theorem semaphore_safe_and_pool_bounded_of_run :
    (∃ s : Semaphoring, s.sem.tokens = 1 ∧ s.sem.available.waitingTasks = [2, 3] ∧ s.Safe 0) ∧
      ∃ p : Pooling, p.tasks = [.complete, .spawned] ∧ p.active ≤ 1 := by
  have hrun : ((semaphoring false 0).restrict (Semaphoring.releaseFits false)).run
      (semaphoring false 0).start
      [.acquire, .acquire, .acquire, .acquire, .poll 0 false 1, .poll 1 false 1, .poll 2 false 1,
        .poll 3 false 1, .release, .release, .poll 2 false 1] = some _ := rfl
  have hpool : (pooling false 1).run (pooling false 1).start
      [.spawnTask, .spawnTask, .pollCall 0 false 1, .pollCall 1 false 1, .pollTask 0 true,
        .pollCall 1 false 1] = some _ := rfl
  exact ⟨⟨_, rfl, rfl,
      (semaphore_safe_and_pool_bounded false 0).1 _ (System.Reaches.start.run hrun)⟩,
    ⟨_, rfl, (semaphore_safe_and_pool_bounded false 1).2 _ (System.reaches_run hpool)⟩⟩

/-- Without overflow checks, a `release` of a full semaphore leaves it with no
token and its event set. -/
theorem exists_not_semaphore_safe :
    ∃ s, (semaphoring false (UInt64.ofNat (2 ^ 64 - 1))).Reaches (fun _ _ => True) s ∧
      s.sem.tokens = 0 ∧ s.sem.available.isSet = true ∧
      ¬ s.Safe (UInt64.ofNat (2 ^ 64 - 1)) := by
  have hrun : (semaphoring false (UInt64.ofNat (2 ^ 64 - 1))).run
      (semaphoring false (UInt64.ofNat (2 ^ 64 - 1))).start [.release] = some _ := rfl
  refine ⟨_, System.reaches_run hrun, by decide, rfl, fun h => ?_⟩
  have hpos := h.set_iff.mp rfl
  exact absurd hpos (by decide)

end Kimojio.Sync
