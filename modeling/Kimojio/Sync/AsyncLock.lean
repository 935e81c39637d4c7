import Kimojio.Transition
import Kimojio.Sync.TimedWait

/-!
# Kimojio.Sync.AsyncLock

`AsyncLock` with everything that can be done to it: any number of `lock`,
`lock_with_deadline` and `try_lock` calls, the polls of their futures, and
the drops of futures and guards.

A future is a suspended async function; one poll runs it up to its next
suspension, and nothing else runs meanwhile. The loops of these functions
are bounded by the list of `Round`s that comes with the poll, in which the
environment says what the clock and the timer answer; a poll with too few
rounds is not a poll at all, and for `lock` one round is always enough
(`poll_lock_isSome`).
-/

namespace Kimojio.Sync

structure AsyncLock where
  unlocked : AsyncEvent

/-- The errors of `lock` and `lock_with_deadline`. -/
inductive LockError where
  | canceled
  | timeout
  deriving DecidableEq, Repr

/-- The future of a call, with the place where it is suspended. -/
inductive LockFuture where
  | lock (wait : Option WaitFuture)
  | withDeadline (deadline : Bool) (place : TimedWait)
  | done
  deriving DecidableEq, Repr

/-- What a poll of a lock future returns. -/
inductive LockPoll where
  | pending (future : LockFuture)
  | locked
  | failed (error : LockError)
  | panicked
  deriving DecidableEq, Repr

namespace AsyncLock

def new : AsyncLock := ⟨AsyncEvent.new.set⟩

def tryLock (lock : AsyncLock) : Option AsyncLock :=
  if lock.unlocked.isSet then some ⟨lock.unlocked.reset⟩ else none

/-- `AsyncLockRef::drop`. -/
def dropRef (lock : AsyncLock) : AsyncLock := ⟨lock.unlocked.setWakeOne⟩

/-- `self.unlocked.wait().await?`, and then `k`. -/
def wait (aborted : Bool) (k : AsyncLock → Option (AsyncLock × LockPoll)) (lock : AsyncLock)
    (w : WaitFuture) : Option (AsyncLock × LockPoll) :=
  await aborted lock.unlocked w (fun e w => some (⟨e⟩, .pending (.lock (some w))))
    (fun e => k ⟨e⟩) (fun e => some (⟨e⟩, .failed .canceled))
    (fun e => some (⟨e⟩, .panicked))

/-- `lock` from the head of its loop. -/
def lockLoop (aborted : Bool) : Nat → AsyncLock → Option (AsyncLock × LockPoll)
  | 0, _ => none
  | fuel + 1, lock =>
    if lock.unlocked.isSet then some (⟨lock.unlocked.reset⟩, .locked)
    else wait aborted (lockLoop aborted fuel) lock (.new true)

/-- The end of `lock_with_deadline`, after its wait. -/
def lockWaited (lock : AsyncLock) : Waited → AsyncLock × LockPoll
  | .ok =>
    match lock.tryLock with
    | some lock => (lock, .locked)
    | none => (lock, .failed .timeout)
  | .canceled => (lock, .failed .canceled)
  | .timeout => (lock, .failed .timeout)
  | .panicked => (lock, .panicked)

/-- `lock_with_deadline` from a place in its wait. -/
def lockWithDeadline (deadline aborted : Bool) (rounds : List Round) (lock : AsyncLock)
    (place : TimedWait) : Option (AsyncLock × LockPoll) :=
  (resume (AsyncEvent.waitRound deadline aborted) rounds lock.unlocked place).map fun
    | (e, .inl place) => (⟨e⟩, .pending (.withDeadline deadline place))
    | (e, .inr waited) => lockWaited ⟨e⟩ waited

end AsyncLock

namespace LockFuture

open AsyncLock

def wait : LockFuture → Option WaitFuture
  | .lock wait => wait
  | .withDeadline _ place => place.suspended
  | .done => none

def poll (aborted : Bool) (rounds : List Round) (lock : AsyncLock) :
    LockFuture → Option (AsyncLock × LockPoll)
  | .lock none => lockLoop aborted rounds.length lock
  | .lock (some w) => lock.wait aborted (lockLoop aborted rounds.length) w
  | .withDeadline deadline place => lock.lockWithDeadline deadline aborted rounds place
  | .done => none

def drop (lock : AsyncLock) (f : LockFuture) : AsyncLock :=
  ⟨WaitFuture.dropSuspended lock.unlocked f.wait⟩

end LockFuture

/-- A lock in use: the number of live `AsyncLockRef`s and all the futures. -/
structure Locking where
  lock : AsyncLock
  refs : Nat
  futures : List LockFuture

inductive LockLabel where
  | lock
  | lockWithDeadline (deadline : Bool)
  | tryLock
  | poll (future : Nat) (aborted : Bool) (rounds : List Round)
  | dropFuture (future : Nat)
  | dropRef
  | cancelWait (waitData : Nat)
  deriving DecidableEq, Repr

namespace Locking

/-- The result of a poll is handed to the caller. -/
def polled (s : Locking) (i : Nat) : AsyncLock × LockPoll → Locking
  | (lock, .pending f) => { s with lock, futures := s.futures.set i f }
  | (lock, .locked) => { lock, refs := s.refs + 1, futures := s.futures.set i .done }
  | (lock, .failed _) => { s with lock, futures := s.futures.set i .done }
  | (lock, .panicked) => { s with lock, futures := s.futures.set i .done }

def next (s : Locking) : LockLabel → Option Locking
  | .lock => some { s with futures := s.futures ++ [.lock none] }
  | .lockWithDeadline deadline =>
    some { s with futures := s.futures ++ [.withDeadline deadline .head] }
  | .tryLock =>
    match s.lock.tryLock with
    | some lock => some { s with lock, refs := s.refs + 1 }
    | none => some s
  | .poll i aborted rounds => do
    let f ← s.futures[i]?
    let r ← f.poll aborted rounds s.lock
    some (s.polled i r)
  | .dropFuture i => do
    let f ← s.futures[i]?
    some { s with lock := f.drop s.lock, futures := s.futures.set i .done }
  | .dropRef =>
    match s.refs with
    | 0 => none
    | refs + 1 => some { s with lock := s.lock.dropRef, refs }
  | .cancelWait d => some { s with lock := ⟨s.lock.unlocked.cancelWait d⟩ }

end Locking

def locking : System Locking LockLabel where
  start := ⟨.new, 0, []⟩
  next := Locking.next

/-! ## One poll -/

/-- The event of a lock that is free (`k = 1`) or not, when no wait of the
polled future is left over. -/
structure AsyncLock.AtHead (e : AsyncEvent) (ws : List Nat) (k : Nat) : Prop where
  queue : Queue e ws
  le : k ≤ 1
  set_iff : e.state = true ↔ k = 1
  tokens : k = 0 → Tokens e ws 0

theorem Tokens.atHead (h : Tokens e ws k) (hk : k ≤ 1) : AsyncLock.AtHead e ws k where
  queue := h.toQueue
  le := hk
  set_iff := by rw [h.set_iff]; omega
  tokens := fun hzero => hzero ▸ h

theorem AsyncLock.AtHead.eq_zero (h : AsyncLock.AtHead e ws k) (hset : ¬ e.state = true) :
    k = 0 := by
  have := h.le
  have := mt h.set_iff.mpr hset
  omega

theorem AsyncLock.AtHead.tokens_of_unset (h : AsyncLock.AtHead e ws k) (hset : ¬ e.state = true) :
    Tokens e ws k := by
  obtain rfl := h.eq_zero hset
  exact h.tokens rfl

/-- A poll keeps the tokens for the waiters `ws` of the other futures. -/
def AsyncLock.Keeps (ws : List Nat) (k : Nat) : AsyncLock × LockPoll → Prop
  | (lock, .pending f) =>
    k = 0 ∧ ∃ d, f.wait = some ⟨some true, some d⟩ ∧ Tokens lock.unlocked (d :: ws) 0
  | (lock, .locked) => k = 1 ∧ Tokens lock.unlocked ws 0
  | (lock, .failed _) => Tokens lock.unlocked ws k
  | (lock, .panicked) => Tokens lock.unlocked ws k

namespace AsyncLock

variable {lock : AsyncLock} {ws : List Nat} {k : Nat} {w : WaitFuture} {aborted : Bool}
  {cont : AsyncLock → Option (AsyncLock × LockPoll)}

theorem wait_keeps (hsource : w.source = some true) (h : Tokens lock.unlocked (w.waiters ++ ws) k)
    (hcont : lock.unlocked.state = true → Returns (Keeps ws k) (cont lock)) :
    Returns (Keeps ws k) (lock.wait aborted cont w) := by
  refine await_rule hsource h.toQueue (fun e d hsuspended => .some ?_) hcont
    (fun e hgiven => .some (hgiven.tokens h)) (fun e hgiven => .some (hgiven.tokens h))
  obtain ⟨hk, htokens⟩ := hsuspended.tokens h
  exact ⟨hk, d, rfl, htokens⟩

/-- The loop of `lock` keeps the tokens. -/
theorem lockLoop_keeps (fuel : Nat) (h : AtHead lock.unlocked ws k) :
    Returns (Keeps ws k) (lockLoop aborted fuel lock) := by
  cases fuel with
  | zero => exact .none
  | succ fuel =>
    unfold lockLoop
    split
    · next hset => exact .some ⟨h.set_iff.mp hset, Tokens.reset h.queue⟩
    · next hset =>
      obtain rfl := h.eq_zero hset
      exact wait_keeps rfl (h.tokens rfl) fun hstate => absurd hstate hset

theorem atHead_of_set (h : Tokens lock.unlocked (w.waiters ++ ws) k) (hk : k ≤ 1)
    (hset : lock.unlocked.state = true) : AtHead lock.unlocked ws k where
  queue := h.toQueue.leaveWait
  le := hk
  set_iff := by rw [h.set_iff]; omega
  tokens := fun hzero => by
    have := h.set_iff.mp hset
    omega

/-- The places of `lock_with_deadline`. Without a deadline it does not come back to the
head, so that there no wait is left over. -/
def Waits (deadline : Bool) (ws : List Nat) (k : Nat) (e : AsyncEvent) : TimedWait → Prop
  | .head => AtHead e ws k ∧ (deadline = false → Tokens e ws k)
  | .wait w => w.source = some true ∧ Tokens e (w.waiters ++ ws) k

theorem waitRule (hk : k ≤ 1) : WaitRule deadline (Waits deadline ws k)
    (fun e place => k = 0 ∧ ∃ d, place = .wait ⟨some true, some d⟩ ∧ Tokens e (d :: ws) 0)
    (fun e waited => (waited = .ok → AtHead e ws k ∧ e.state = true) ∧
      (waited ≠ .ok → Tokens e ws k)) where
  fresh := by
    rintro e ⟨hhead, htokens⟩ hunset
    cases deadline with
    | false => exact ⟨rfl, htokens rfl⟩
    | true => exact ⟨rfl, hhead.tokens_of_unset (by simp [hunset])⟩
  ok := fun h hset => ⟨fun _ => ⟨h.1, hset⟩, by simp⟩
  timeout := fun h hunset => ⟨by simp, fun _ => h.1.tokens_of_unset (by simp [hunset])⟩
  dropped := by
    rintro e w ⟨hsource, h⟩
    have htokens := h.drop hsource
    exact ⟨⟨htokens.atHead hk, fun _ => htokens⟩, ⟨by simp, fun _ => htokens⟩, by simp,
      fun _ => htokens⟩
  poll := by
    rintro e w aborted _ _ _ _ P ⟨hsource, h⟩ hsuspend hready hcanceled hpanicked
    refine await_rule hsource h.toQueue (fun e' d hs => ?_) (fun hset => ?_)
      (fun e' hg => hcanceled _ ⟨by simp, fun _ => hg.tokens h⟩)
      fun e' hg => hpanicked _ ⟨by simp, fun _ => hg.tokens h⟩
    · obtain ⟨rfl, htokens⟩ := hs.tokens h
      exact hsuspend _ _ ⟨rfl, htokens⟩ ⟨rfl, d, rfl, htokens⟩
    · have hhead := atHead_of_set h hk hset
      refine hready _ (fun hdeadline => ⟨hhead, by simp [hdeadline]⟩) ⟨fun _ => ⟨hhead, hset⟩, ?_⟩
      simp

/-- So does `lock_with_deadline`. -/
theorem lockWithDeadline_keeps (hk : k ≤ 1) (h : Waits deadline ws k lock.unlocked place) :
    Returns (Keeps ws k) (lock.lockWithDeadline deadline aborted rounds place) := by
  intro r hr
  obtain ⟨⟨e, place' | waited⟩, hpoll, rfl⟩ := Option.map_eq_some_iff.mp hr
  all_goals
    have hpolled := resume_rule (fun _ _ _ hwaits => (waitRule hk).ends hwaits) h hpoll
  · obtain ⟨hzero, d, rfl, htokens⟩ := hpolled
    exact ⟨hzero, d, rfl, htokens⟩
  · cases waited with
    | ok =>
      obtain ⟨hhead, hset⟩ := hpolled.1 rfl
      have htry : (⟨e⟩ : AsyncLock).tryLock = some ⟨e.reset⟩ := if_pos hset
      dsimp only [lockWaited]
      rw [htry]
      exact ⟨hhead.set_iff.mp hset, Tokens.reset hhead.queue⟩
    | canceled | timeout | panicked => exact hpolled.2 (by simp)

end AsyncLock

namespace LockFuture

open AsyncLock

/-- The waiter that a future is, if it is pending. -/
def waiters (f : LockFuture) : List Nat := waitersOf f.wait

theorem poll_keeps {f : LockFuture} {lock : AsyncLock} (aborted : Bool) (rounds : List Round)
    (hwaits : AwaitsSet f.wait) (h : Tokens lock.unlocked (f.waiters ++ ws) k) (hk : k ≤ 1) :
    Returns (Keeps ws k) (f.poll aborted rounds lock) := by
  match f with
  | .lock none => exact lockLoop_keeps _ (h.atHead hk)
  | .lock (some w) =>
    exact wait_keeps hwaits.source h fun hset => lockLoop_keeps _ (atHead_of_set h hk hset)
  | .withDeadline deadline .head => exact lockWithDeadline_keeps hk ⟨h.atHead hk, fun _ => h⟩
  | .withDeadline deadline (.wait w) => exact lockWithDeadline_keeps hk ⟨hwaits.source, h⟩
  | .done => exact .none

end LockFuture

/-- One round is enough for a poll of `lock`: its loop goes round only after
a wait that found the lock free. -/
theorem poll_lock_isSome {f : LockFuture} {round : Round} (hlock : ∃ wait, f = .lock wait)
    (hwaits : AwaitsSet f.wait) (h : Tokens lock.unlocked (f.waiters ++ ws) k) :
    (f.poll aborted [round] lock).isSome := by
  have hset (hstate : lock.unlocked.state = true) : (AsyncLock.lockLoop aborted 1 lock).isSome := by
    unfold AsyncLock.lockLoop
    rw [if_pos (show lock.unlocked.isSet = true from hstate)]
    rfl
  have hwait (w : WaitFuture) (fuel : Nat) (hw : w.source = some true)
      (h : Tokens lock.unlocked (w.waiters ++ ws) k)
      (hcont : lock.unlocked.state = true → (AsyncLock.lockLoop aborted fuel lock).isSome) :
      (lock.wait aborted (AsyncLock.lockLoop aborted fuel) w).isSome := by
    exact await_rule (P := fun o : Option _ => o.isSome = true) hw h.toQueue (fun _ _ _ => rfl)
      hcont
      (fun _ _ => rfl) (fun _ _ => rfl)
  obtain ⟨wait, rfl⟩ := hlock
  cases wait with
  | some w => exact hwait w 1 hwaits.source h hset
  | none =>
    rw [LockFuture.poll, List.length_singleton, AsyncLock.lockLoop]
    split
    · rfl
    · next hnot => exact hwait (.new true) 0 rfl h fun hstate => absurd hstate hnot

/-! ## Every run -/

namespace Locking

/-- The waiters of all the futures. -/
def waiters (s : Locking) : List Nat := s.futures.flatMap LockFuture.waiters

/-- A free lock has one token for its waiters. -/
structure Inv (s : Locking) : Prop where
  refs_le : s.refs ≤ 1
  waits : ∀ f ∈ s.futures, AwaitsSet f.wait
  tokens : Tokens s.lock.unlocked s.waiters (1 - s.refs)

theorem Inv.push {s : Locking} (h : s.Inv) (hf : f.wait = none) :
    Inv { s with futures := s.futures ++ [f] } where
  refs_le := h.refs_le
  waits := by
    intro g hg
    rcases List.mem_append.mp hg with hg | hg
    · exact h.waits g hg
    · obtain rfl := List.mem_singleton.mp hg
      rw [hf]
      exact .none
  tokens := by
    have hwaiters : f.waiters = [] := by rw [LockFuture.waiters, hf]; rfl
    have hold := h.tokens
    simpa [waiters, hwaiters] using hold

/-- One future is replaced, together with the lock. -/
theorem Inv.replace {s : Locking} {lock : AsyncLock} {refs : Nat} (h : s.Inv)
    (hf : s.futures[i]? = some f) (hrefs : refs ≤ 1) (hwaits : AwaitsSet f'.wait)
    (hlock : ∀ ws, Tokens s.lock.unlocked (f.waiters ++ ws) (1 - s.refs) →
      Tokens lock.unlocked (f'.waiters ++ ws) (1 - refs)) :
    Inv ⟨lock, refs, s.futures.set i f'⟩ where
  refs_le := hrefs
  waits := fun g hg => (List.mem_or_eq_of_mem_set hg).elim (h.waits g) fun heq => heq ▸ hwaits
  tokens := by
    obtain ⟨ws, hold, hnew⟩ := exists_perm_flatMap_set hf LockFuture.waiters
    exact (hlock ws (h.tokens.perm hold)).perm (hnew f').symm

theorem Inv.free_iff {s : Locking} (h : s.Inv) : s.lock.unlocked.state = true ↔ s.refs = 0 := by
  have := h.refs_le
  rw [h.tokens.set_iff]
  omega

theorem Inv.polled {s : Locking} (h : s.Inv)
    (hf : s.futures[i]? = some f) (hr : f.poll aborted rounds s.lock = some r) :
    (s.polled i r).Inv := by
  have hwaits := h.waits f (List.mem_of_getElem? hf)
  have hkeeps (ws : List Nat) (hws : Tokens s.lock.unlocked (f.waiters ++ ws) (1 - s.refs)) :
      AsyncLock.Keeps ws (1 - s.refs) r :=
    LockFuture.poll_keeps aborted rounds hwaits hws (by omega) r hr
  obtain ⟨ws, hold, -⟩ := exists_perm_flatMap_set hf LockFuture.waiters
  have hsome := hkeeps ws (h.tokens.perm hold)
  obtain ⟨lock, poll⟩ := r
  cases poll with
  | pending f' =>
    obtain ⟨-, d, hwait, -⟩ := hsome
    refine h.replace hf h.refs_le ?_ fun ws hws => ?_
    · rw [hwait]
      exact .some
    · obtain ⟨hk, e, he, htokens⟩ := hkeeps ws hws
      rw [LockFuture.waiters, he, hk]
      exact htokens
  | locked =>
    have hfree : s.refs = 0 := by
      have := hsome.1
      omega
    refine h.replace hf (by omega) .none fun ws hws => ?_
    rw [hfree]
    exact (hkeeps ws hws).2
  | failed | panicked => exact h.replace hf h.refs_le .none hkeeps

/-- Every step keeps the invariant. -/
theorem Inv.next {s s' : Locking} (h : s.Inv) (hs : s.next a = some s') : s'.Inv := by
  cases a with
  | lock | lockWithDeadline =>
    cases hs
    exact h.push rfl
  | tryLock =>
    rw [Locking.next, AsyncLock.tryLock] at hs
    by_cases hset : s.lock.unlocked.isSet = true
    · rw [if_pos hset] at hs
      cases hs
      have hfree : s.refs = 0 := h.free_iff.mp hset
      refine ⟨by simp [hfree], h.waits, ?_⟩
      rw [hfree]
      exact Tokens.reset h.tokens.toQueue
    · rw [if_neg hset] at hs
      cases hs
      exact h
  | poll i aborted rounds =>
    obtain ⟨f, hf, hs⟩ := Option.bind_eq_some_iff.mp hs
    obtain ⟨r, hr, hs⟩ := Option.bind_eq_some_iff.mp hs
    cases hs
    exact h.polled hf hr
  | dropFuture i =>
    obtain ⟨f, hf, hs⟩ := Option.bind_eq_some_iff.mp hs
    cases hs
    exact h.replace hf h.refs_le .none fun ws hws =>
      Tokens.dropSuspended (h.waits f (List.mem_of_getElem? hf)) hws
  | dropRef =>
    rw [Locking.next] at hs
    have hle := h.refs_le
    have htokens := h.tokens
    split at hs
    · cases hs
    · next refs hrefs =>
      cases hs
      obtain rfl : refs = 0 := by omega
      rw [hrefs] at htokens
      exact ⟨Nat.zero_le _, h.waits, htokens.setWakeOne⟩
  | cancelWait d =>
    cases hs
    exact ⟨h.refs_le, h.waits, h.tokens.cancelWait⟩

theorem Inv.start : locking.start.Inv where
  refs_le := Nat.zero_le _
  waits := by simp [locking]
  tokens := Tokens.set (Queue.withState false) Nat.one_pos

end Locking

/-- There is one guard at most, the event is set when there is none, and then
no pending future waits for a wakeup that nobody is about to pass on. -/
structure Locking.Safe (s : Locking) : Prop where
  exclusive : s.refs ≤ 1
  set_iff : s.lock.unlocked.isSet = true ↔ s.refs = 0
  handedOver : s.refs = 0 → ∀ (i : Nat) (f : LockFuture), s.futures[i]? = some f →
    Linked s.lock.unlocked f.waiters → ¬ Woken s.lock.unlocked f.waiters →
    ∃ (j : Nat) (g : LockFuture), j ≠ i ∧ s.futures[j]? = some g ∧ Woken s.lock.unlocked g.waiters

theorem Locking.Inv.safe {s : Locking} (h : s.Inv) : s.Safe where
  exclusive := h.refs_le
  set_iff := h.free_iff
  handedOver := by
    intro hfree i f hf hlinked hwoken
    have htokens := h.tokens
    rw [hfree] at htokens
    exact htokens.exists_woken hf hlinked hwoken

/-- **The lock is safe in every run.** -/
theorem locking_safe {s : Locking} (h : locking.Reaches (fun _ _ => True) s) : s.Safe := by
  refine Locking.Inv.safe (h.invariant Locking.Inv.start ?_)
  exact fun s a s' hinv _ hs => hinv.next hs

/-- Two futures wait for a guard that is dropped: the first of them is woken,
and the second stays linked. -/
theorem locking_safe_two_waiters :
    ∃ s : Locking, s.refs = 0 ∧ s.lock.unlocked.waitingTasks = [1] ∧ s.Safe := by
  have hrun : locking.run locking.start
      [.tryLock, .lock, .lockWithDeadline true, .poll 0 false [⟨true, false, none, false⟩],
        .poll 1 false (List.replicate 2 ⟨true, false, none, false⟩), .dropRef] = some _ := rfl
  exact ⟨_, rfl, rfl, locking_safe (System.reaches_run hrun)⟩

end Kimojio.Sync
