import Kimojio.Transition
import Kimojio.Sync.Waiters
import Mathlib.Algebra.Group.Nat.Defs

/-!
# Kimojio.Sync.AsyncSemaphore

`AsyncSemaphore` under any interleaving of `acquire`, `release`, polls,
cancellations and drops, and the `TaskPool` that is built on it.

A poll of `acquire` always ends (`AcquireFuture.poll_isSome`).

The number of tokens is a `usize`. What `release` does when it is at its
maximum depends on the build: with overflow checks it panics, and without
them the number of tokens becomes zero, while the event is set.
-/

namespace Kimojio.Sync

structure AsyncSemaphore where
  tokens : UInt64
  available : AsyncEvent

/-- What a poll of `acquire` returns. -/
inductive AcquirePoll where
  | pending (wait : WaitFuture)
  | acquired
  | canceled
  | panicked
  deriving DecidableEq, Repr

namespace AsyncSemaphore

def new (initialCount : UInt64) : AsyncSemaphore where
  tokens := initialCount
  available := if initialCount > 0 then AsyncEvent.new.set else AsyncEvent.new

/-- `self.available.wait().await?`, and then `k`. -/
def wait (aborted : Bool) (k : AsyncSemaphore → Option (AsyncSemaphore × AcquirePoll))
    (sem : AsyncSemaphore) (w : WaitFuture) : Option (AsyncSemaphore × AcquirePoll) :=
  await aborted sem.available w (fun e w => some ({ sem with available := e }, .pending w))
    (fun e => k { sem with available := e })
    (fun e => some ({ sem with available := e }, .canceled))
    (fun e => some ({ sem with available := e }, .panicked))

/-- `acquire` from the head of its loop, for a number of rounds. -/
def acquireLoop (aborted : Bool) : Nat → AsyncSemaphore → Option (AsyncSemaphore × AcquirePoll)
  | 0, _ => none
  | fuel + 1, sem =>
    if sem.tokens = 0 then wait aborted (acquireLoop aborted fuel) sem (.new true)
    else
      let count := sem.tokens - 1
      some (⟨count, if count = 0 then sem.available.reset else sem.available⟩, .acquired)

/-- `release`, which fails by a panic when the sum overflows and overflows
are checked. -/
def release (overflowChecks : Bool) (sem : AsyncSemaphore) : Option AsyncSemaphore :=
  if overflowChecks && sem.tokens = UInt64.ofNat (2 ^ 64 - 1) then none
  else some ⟨sem.tokens + 1, sem.available.setWakeOne⟩

end AsyncSemaphore

/-- The future of `acquire`, with the wait in which it is suspended. -/
inductive AcquireFuture where
  | acquire (wait : Option WaitFuture)
  | done
  deriving DecidableEq, Repr

namespace AcquireFuture

open AsyncSemaphore

def wait : AcquireFuture → Option WaitFuture
  | .acquire wait => wait
  | .done => none

def poll (aborted : Bool) (fuel : Nat) (sem : AsyncSemaphore) :
    AcquireFuture → Option (AsyncSemaphore × AcquirePoll)
  | .acquire none => acquireLoop aborted fuel sem
  | .acquire (some w) => sem.wait aborted (acquireLoop aborted fuel) w
  | .done => none

def drop (sem : AsyncSemaphore) (f : AcquireFuture) : AsyncSemaphore :=
  { sem with available := WaitFuture.dropSuspended sem.available f.wait }

end AcquireFuture

/-- A semaphore in use, with the calls that completed so far. -/
structure Semaphoring where
  sem : AsyncSemaphore
  acquires : Nat
  releases : Nat
  futures : List AcquireFuture

inductive SemaphoreLabel where
  | acquire
  | poll (future : Nat) (aborted : Bool) (fuel : Nat)
  | dropFuture (future : Nat)
  | release
  | cancelWait (waitData : Nat)
  deriving DecidableEq, Repr

namespace Semaphoring

/-- The result of a poll is handed to the caller. -/
def polled (s : Semaphoring) (i : Nat) : AsyncSemaphore × AcquirePoll → Semaphoring
  | (sem, .pending w) => { s with sem, futures := s.futures.set i (.acquire (some w)) }
  | (sem, .acquired) => { s with sem, acquires := s.acquires + 1, futures := s.futures.set i .done }
  | (sem, .canceled) => { s with sem, futures := s.futures.set i .done }
  | (sem, .panicked) => { s with sem, futures := s.futures.set i .done }

def next (overflowChecks : Bool) (s : Semaphoring) : SemaphoreLabel → Option Semaphoring
  | .acquire => some { s with futures := s.futures ++ [.acquire none] }
  | .poll i aborted fuel => do
    let f ← s.futures[i]?
    let r ← f.poll aborted fuel s.sem
    some (s.polled i r)
  | .dropFuture i => do
    let f ← s.futures[i]?
    some { s with sem := f.drop s.sem, futures := s.futures.set i .done }
  | .release =>
    match s.sem.release overflowChecks with
    | some sem => some { s with sem, releases := s.releases + 1 }
    | none => some s
  | .cancelWait d =>
    some { s with sem := { s.sem with available := s.sem.available.cancelWait d } }

end Semaphoring

/-- A semaphore with `initialCount` tokens. -/
def semaphoring (overflowChecks : Bool) (initialCount : UInt64) :
    System Semaphoring SemaphoreLabel where
  start := ⟨.new initialCount, 0, 0, []⟩
  next := Semaphoring.next overflowChecks

/-! ## One poll -/

theorem toNat_pred {t : UInt64} (h : t ≠ 0) : (t - 1).toNat + 1 = t.toNat := by
  have hpos : t.toNat ≠ 0 := fun hzero => h (UInt64.toNat_inj.mp hzero)
  have hle : (1 : UInt64) ≤ t := UInt64.le_iff_toNat_le.mpr (Nat.one_le_iff_ne_zero.mpr hpos)
  have hsub := UInt64.toNat_sub_of_le t 1 hle
  have hone : (1 : UInt64).toNat = 1 := rfl
  omega

theorem toNat_succ (h : t ≠ UInt64.ofNat (2 ^ 64 - 1)) : (t + 1).toNat = t.toNat + 1 := by
  have hne : t.toNat ≠ 2 ^ 64 - 1 := fun heq => h (UInt64.toNat_inj.mp heq)
  have hlt := t.toNat_lt
  have hadd := UInt64.toNat_add t 1
  have hone : (1 : UInt64).toNat = 1 := rfl
  omega

namespace AsyncSemaphore

/-- The waiters `ws` of a semaphore: it has as many tokens for them as it
counts. -/
def Counts (sem : AsyncSemaphore) (ws : List Nat) : Prop :=
  Tokens sem.available ws sem.tokens.toNat

/-- A poll keeps the tokens for the waiters `ws` of the other futures. -/
def Keeps (ws : List Nat) (tokens : UInt64) : AsyncSemaphore × AcquirePoll → Prop
  | (sem, .pending w) => sem.tokens = tokens ∧ ∃ d, w = ⟨some true, some d⟩ ∧ sem.Counts (d :: ws)
  | (sem, .acquired) => sem.tokens.toNat + 1 = tokens.toNat ∧ sem.Counts ws
  | (sem, .canceled) => sem.tokens = tokens ∧ sem.Counts ws
  | (sem, .panicked) => sem.tokens = tokens ∧ sem.Counts ws

variable {sem : AsyncSemaphore} {ws : List Nat} {w : WaitFuture} {aborted : Bool}
  {cont : AsyncSemaphore → Option (AsyncSemaphore × AcquirePoll)}

theorem wait_keeps (hsource : w.source = some true) (h : sem.Counts (w.waiters ++ ws))
    (hcont : sem.available.state = true → Returns (Keeps ws sem.tokens) (cont sem)) :
    Returns (Keeps ws sem.tokens) (sem.wait aborted cont w) := by
  refine await_rule hsource h.toQueue (fun e d hsuspended => .some ?_) hcont
    (fun e hgiven => .some ⟨rfl, hgiven.tokens h⟩) (fun e hgiven => .some ⟨rfl, hgiven.tokens h⟩)
  obtain ⟨hzero, htokens⟩ := hsuspended.tokens h
  refine ⟨rfl, d, rfl, ?_⟩
  unfold Counts
  rw [hzero]
  exact htokens

/-- The loop of `acquire`, after a wait that found the event set or before
any wait. -/
theorem acquireLoop_keeps (fuel : Nat) (h : sem.Counts (w.waiters ++ ws))
    (hw : w.waiters = [] ∨ sem.available.state = true) :
    Returns (Keeps ws sem.tokens) (acquireLoop aborted fuel sem) := by
  cases fuel with
  | zero => exact .none
  | succ fuel =>
    unfold acquireLoop
    split
    · next hzero =>
      have hset : ¬ sem.available.state = true := by
        rw [h.set_iff, hzero]
        decide
      rw [hw.resolve_right hset] at h
      exact wait_keeps rfl h fun hstate => absurd hstate hset
    · next hpos =>
      have hpred := toNat_pred hpos
      dsimp only
      split
      · next hlast =>
        refine .some ⟨hpred, ?_⟩
        rw [hlast]
        exact Tokens.reset h.toQueue.leaveWait
      · next hmore =>
        refine .some ⟨hpred, ?_⟩
        have hpred' := toNat_pred hmore
        unfold Counts at h ⊢
        rw [← hpred, ← hpred'] at h
        rw [← hpred']
        exact h.leaveWait

end AsyncSemaphore

namespace AcquireFuture

open AsyncSemaphore

/-- The waiter that a future is, if it is pending. -/
def waiters (f : AcquireFuture) : List Nat := waitersOf f.wait

theorem poll_keeps {f : AcquireFuture} (aborted : Bool) (fuel : Nat) (hwaits : AwaitsSet f.wait)
    (h : sem.Counts (f.waiters ++ ws)) :
    Returns (AsyncSemaphore.Keeps ws sem.tokens) (f.poll aborted fuel sem) := by
  match f with
  | .acquire none => exact acquireLoop_keeps (w := .new true) fuel h (.inl rfl)
  | .acquire (some w) =>
    exact wait_keeps hwaits.source h fun hset => acquireLoop_keeps fuel h (.inr hset)
  | .done => exact .none

/-- One round is enough for a poll of `acquire`: its loop goes round only after
a wait that found the event set, while there are tokens. -/
theorem poll_isSome {f : AcquireFuture} (hf : f ≠ .done) (hwaits : AwaitsSet f.wait)
    (h : sem.Counts (f.waiters ++ ws)) : (f.poll aborted (fuel + 1) sem).isSome := by
  have hpos (hset : sem.available.state = true) : sem.tokens ≠ 0 := by
    intro hzero
    rw [h.set_iff, hzero] at hset
    cases hset
  have hwait {cont} (w : WaitFuture) (hw : w.source = some true) (h : sem.Counts (w.waiters ++ ws))
      (hcont : sem.available.state = true → (cont sem).isSome) : (sem.wait aborted cont w).isSome :=
    await_rule (P := fun o : Option _ => o.isSome = true) hw h.toQueue (fun _ _ _ => rfl) hcont
      (fun _ _ => rfl) (fun _ _ => rfl)
  match f with
  | .acquire none =>
    rw [poll, acquireLoop]
    split
    · next hzero => exact hwait (.new true) rfl h fun hset => absurd hzero (hpos hset)
    · rfl
  | .acquire (some w) =>
    refine hwait w hwaits.source h fun hset => ?_
    rw [acquireLoop, if_neg (hpos hset)]
    rfl
  | .done => exact absurd rfl hf

/-- The future has been woken and not polled since. -/
def woken (e : AsyncEvent) (f : AcquireFuture) : Bool :=
  f.waiters.any fun d => (e.waits d).woken

end AcquireFuture

/-! ## Every run -/

namespace Semaphoring

/-- A semaphore whose count does not overflow. -/
structure Inv (initialCount : UInt64) (s : Semaphoring) : Prop where
  tokens_eq : s.sem.tokens.toNat + s.acquires = initialCount.toNat + s.releases
  waits : ∀ f ∈ s.futures, AwaitsSet f.wait
  counts : s.sem.Counts (s.futures.flatMap AcquireFuture.waiters)

variable {initialCount : UInt64} {s : Semaphoring}

theorem Inv.start : Inv initialCount (semaphoring overflowChecks initialCount).start where
  tokens_eq := rfl
  waits := by simp [semaphoring]
  counts := by
    show Tokens (AsyncSemaphore.new initialCount).available [] initialCount.toNat
    unfold AsyncSemaphore.new
    split
    · next hpos => exact Tokens.set (Queue.withState false) (UInt64.lt_iff_toNat_lt.mp hpos)
    · next hzero =>
      have hzero : initialCount.toNat = 0 := by
        have := mt UInt64.lt_iff_toNat_lt.mpr hzero
        simpa using this
      rw [hzero]
      exact Tokens.withState 0

/-- One future is replaced, together with the semaphore. -/
theorem Inv.replace {sem : AsyncSemaphore} {acquires : Nat} (h : s.Inv initialCount)
    (hf : s.futures[i]? = some f) (hwaits : AwaitsSet f'.wait)
    (htokens : sem.tokens.toNat + acquires = s.sem.tokens.toNat + s.acquires)
    (hsem : ∀ ws, s.sem.Counts (f.waiters ++ ws) → sem.Counts (f'.waiters ++ ws)) :
    Inv initialCount { s with sem, acquires, futures := s.futures.set i f' } where
  tokens_eq := htokens.trans h.tokens_eq
  waits := fun g hg => (List.mem_or_eq_of_mem_set hg).elim (h.waits g) fun heq => heq ▸ hwaits
  counts := by
    obtain ⟨ws, hold, hnew⟩ := exists_perm_flatMap_set hf AcquireFuture.waiters
    exact (hsem ws (h.counts.perm hold)).perm (hnew f').symm

theorem Inv.polled (h : s.Inv initialCount) (hf : s.futures[i]? = some f)
    (hr : f.poll aborted fuel s.sem = some r) : (s.polled i r).Inv initialCount := by
  have hwaits := h.waits f (List.mem_of_getElem? hf)
  have hkeeps (ws : List Nat) (hws : s.sem.Counts (f.waiters ++ ws)) :
      AsyncSemaphore.Keeps ws s.sem.tokens r :=
    AcquireFuture.poll_keeps aborted fuel hwaits hws r hr
  obtain ⟨ws, hold, -⟩ := exists_perm_flatMap_set hf AcquireFuture.waiters
  have hsome := hkeeps ws (h.counts.perm hold)
  obtain ⟨sem, poll⟩ := r
  cases poll with
  | pending w =>
    obtain ⟨htokens, d, rfl, -⟩ := hsome
    refine h.replace hf .some (by rw [htokens]) fun ws hws => ?_
    obtain ⟨-, e, he, hcounts⟩ := hkeeps ws hws
    cases he
    exact hcounts
  | acquired =>
    have htokens := hsome.1
    exact h.replace hf .none (by omega) fun ws hws => (hkeeps ws hws).2
  | canceled | panicked =>
    have htokens := hsome.1
    exact h.replace hf .none (by rw [htokens]) fun ws hws => (hkeeps ws hws).2

/-- The sum of a `release` fits into a `usize`, or is checked. -/
def releaseFits (overflowChecks : Bool) (s : Semaphoring) : SemaphoreLabel → Bool
  | .release => overflowChecks || s.sem.tokens != UInt64.ofNat (2 ^ 64 - 1)
  | _ => true

theorem Inv.next (h : s.Inv initialCount)
    (hfits : releaseFits overflowChecks s a = true) (hs : s.next overflowChecks a = some s') :
    s'.Inv initialCount := by
  cases a with
  | acquire =>
    cases hs
    refine ⟨h.tokens_eq, ?_, ?_⟩
    · intro g hg
      rcases List.mem_append.mp hg with hg | hg
      · exact h.waits g hg
      · obtain rfl := List.mem_singleton.mp hg
        exact .none
    · have hcounts := h.counts
      simpa [AcquireFuture.waiters, AcquireFuture.wait, waitersOf] using hcounts
  | poll i aborted fuel =>
    obtain ⟨f, hf, hs⟩ := Option.bind_eq_some_iff.mp hs
    obtain ⟨r, hr, hs⟩ := Option.bind_eq_some_iff.mp hs
    cases hs
    exact h.polled hf hr
  | dropFuture i =>
    obtain ⟨f, hf, hs⟩ := Option.bind_eq_some_iff.mp hs
    cases hs
    exact h.replace hf .none rfl fun ws hws =>
      Tokens.dropSuspended (h.waits f (List.mem_of_getElem? hf)) hws
  | release =>
    rw [Semaphoring.next, AsyncSemaphore.release] at hs
    by_cases hmax : s.sem.tokens = UInt64.ofNat (2 ^ 64 - 1)
    · obtain rfl : overflowChecks = true := by simpa [releaseFits, hmax] using hfits
      simp only [hmax, decide_true, Bool.and_self, if_true] at hs
      cases hs
      exact h
    · have hsucc := toNat_succ hmax
      simp only [hmax, decide_false, Bool.and_false, Bool.false_eq_true, if_false] at hs
      cases hs
      refine ⟨?_, h.waits, ?_⟩
      · have := h.tokens_eq
        dsimp only
        omega
      · have hrelease := h.counts.setWakeOne
        rw [← hsucc] at hrelease
        exact hrelease
  | cancelWait d =>
    cases hs
    exact ⟨h.tokens_eq, h.waits, h.counts.cancelWait⟩

/-- The tokens are what was released and not acquired, the event is set while
there are some, and as long as a pending future is linked and not woken there
are as many woken ones as tokens. -/
structure Safe (initialCount : UInt64) (s : Semaphoring) : Prop where
  tokens_eq : s.sem.tokens.toNat + s.acquires = initialCount.toNat + s.releases
  set_iff : s.sem.available.isSet = true ↔ 0 < s.sem.tokens.toNat
  handedOver : 0 < s.sem.tokens.toNat →
    (∃ f ∈ s.futures, Linked s.sem.available f.waiters ∧ f.woken s.sem.available = false) →
    s.sem.tokens.toNat ≤ s.futures.countP (AcquireFuture.woken s.sem.available)

theorem Inv.safe (h : s.Inv initialCount) : s.Safe initialCount where
  tokens_eq := h.tokens_eq
  set_iff := h.counts.set_iff
  handedOver := by
    rintro - ⟨f, hf, ⟨d, hd, hlinked⟩, -⟩
    have hmem : d ∈ s.futures.flatMap AcquireFuture.waiters := List.mem_flatMap.mpr ⟨f, hf, hd⟩
    have hwoken := h.counts.le_woken hmem hlinked
    have hfutures := countP_flatMap_le s.futures (g := AcquireFuture.waiters)
      (fun f => length_waitersOf f.wait) fun d => (s.sem.available.waits d).woken
    exact Nat.le_trans hwoken hfutures

/-- A semaphore is safe as long as its count does not overflow. -/
theorem safe_of_reaches (h : (semaphoring overflowChecks initialCount).Reaches
      (fun s a => releaseFits overflowChecks s a = true) s) : s.Safe initialCount := by
  refine Inv.safe (h.invariant Inv.start ?_)
  exact fun s a s' hinv hfits hs => hinv.next hfits hs

end Semaphoring

end Kimojio.Sync
