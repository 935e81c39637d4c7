import Kimojio.Stream.OwnedFdWrite
import Kimojio.Stream.ReadState
import Kimojio.Transition

/-!
# Kimojio.Stream.OwnedFdRead

`try_read` and `read` of an `OwnedFdStream`, and of the half that `split` makes
of it. Both take their bytes from a buffer that is filled by one read of the
descriptor when it is empty, and that moves to the read half with the stream.

Whatever the kernel gives at a time, and whatever the calls ask for, the bytes
come out as the peer sent them: those delivered and those still unread, in the
buffer and behind the descriptor, are the stream (`Inv`).
-/

namespace Kimojio.FdStream

open Kimojio.Ring (Errno)

/-! ## The kernel -/

/-- What can be read from a descriptor. `kernel i` is how many bytes the request `i` gives,
or its error. -/
structure Incoming where
  rest : List UInt8
  kernel : Nat → Except Errno Nat
  calls : Nat

/-- `read_with_deadline` with a buffer of `size` bytes: a request gives a byte at least, if
there is one, and fills the buffer at most. -/
def Incoming.read (size : Nat) (i : Incoming) :
    Incoming × Except Errno { chunk : List UInt8 // chunk.length ≤ size } :=
  match i.kernel i.calls with
  | .error e => ({ i with calls := i.calls + 1 }, .error e)
  | .ok amount =>
    let amount := min (max 1 amount) size
    have hle : (i.rest.take amount).length ≤ size :=
      Nat.le_trans (List.length_take_le _ _) (Nat.min_le_right _ _)
    ({ i with calls := i.calls + 1, rest := i.rest.drop amount }, .ok ⟨i.rest.take amount, hle⟩)

/-! ## The functions -/

/-- What a call leaves: the descriptor and the buffer of the stream, what was copied to the
caller's buffer, and the result. -/
structure Got (ρ : Type) where
  incoming : Incoming
  readState : OwnedFdReadState
  bytes : List UInt8
  result : Except Errno ρ

/-- The copy at the end of `try_read_impl`. -/
def copyOut (len : Nat) (readState : OwnedFdReadState) (i : Incoming) : Got Nat :=
  let (bytes, rest) := readState.take len
  ⟨i, rest, bytes, .ok (min len readState.readAvailable)⟩

def tryReadImpl (fd : Bool) (len : Nat) (readState : OwnedFdReadState) (i : Incoming) : Got Nat :=
  if fd then
    if readState.readAvailable = 0 then
      match i.read readBufferSize with
      | (i, .error e) => ⟨i, readState, [], .error e⟩
      | (i, .ok chunk) =>
        if chunk.1.length = 0 then ⟨i, readState, [], .ok 0⟩
        else copyOut len (readState.fill chunk.1 chunk.2) i
    else copyOut len readState i
  else ⟨i, readState, [], .error epipe⟩

def readImpl (fd : Bool) (len : Nat) (readState : OwnedFdReadState) (i : Incoming) : Got Unit :=
  if len = 0 then ⟨i, readState, [], .ok ()⟩
  else
    let got := tryReadImpl fd len readState i
    match got.result with
    | .error e => ⟨got.incoming, got.readState, got.bytes, .error e⟩
    | .ok amount =>
      if amount = 0 then ⟨got.incoming, got.readState, got.bytes, .error epipe⟩
      else
        let rest := readImpl fd (len - amount) got.readState got.incoming
        { rest with bytes := got.bytes ++ rest.bytes }
termination_by len

/-! ## The stream and its halves -/

structure OwnedFdStream where
  fd : Bool
  readState : OwnedFdReadState

structure OwnedFdStreamRead where
  fd : Bool
  readState : OwnedFdReadState

structure OwnedFdStreamWrite where
  fd : Bool

def OwnedFdStream.new : OwnedFdStream := ⟨true, .new⟩

/-- `split`, when the descriptor can be cloned. -/
def OwnedFdStream.split (stream : OwnedFdStream) : OwnedFdStreamRead × OwnedFdStreamWrite :=
  (⟨stream.fd, stream.readState⟩, ⟨stream.fd⟩)

/-- Who reads: the stream, or the read half of it. -/
inductive Reader where
  | whole (stream : OwnedFdStream)
  | half (stream : OwnedFdStreamRead)

namespace Reader

def fd : Reader → Bool
  | whole stream => stream.fd
  | half stream => stream.fd

def readState : Reader → OwnedFdReadState
  | whole stream => stream.readState
  | half stream => stream.readState

def setReadState (readState : OwnedFdReadState) : Reader → Reader
  | whole stream => whole { stream with readState }
  | half stream => half { stream with readState }

def split : Reader → Option Reader
  | whole stream => some (half stream.split.1)
  | half _ => none

end Reader

inductive Call where
  | tryRead (len : Nat)
  | read (len : Nat)
  | split
  deriving DecidableEq

/-- A stream in use, with all that its calls have delivered. -/
structure Reads where
  reader : Reader
  incoming : Incoming
  delivered : List UInt8

namespace Reads

def tryRead (s : Reads) (len : Nat) : Got Nat :=
  tryReadImpl s.reader.fd len s.reader.readState s.incoming

def read (s : Reads) (len : Nat) : Got Unit :=
  readImpl s.reader.fd len s.reader.readState s.incoming

def after (s : Reads) (got : Got ρ) : Reads :=
  ⟨s.reader.setReadState got.readState, got.incoming, s.delivered ++ got.bytes⟩

def next (s : Reads) : Call → Option Reads
  | .tryRead len => some (s.after (s.tryRead len))
  | .read len => some (s.after (s.read len))
  | .split => s.reader.split.map fun reader => { s with reader }

end Reads

/-- The calls of a stream, while the peer sends `bytes` and the kernel cuts them. -/
def reading (bytes : List UInt8) (kernel : Nat → Except Errno Nat) : System Reads Call where
  start := ⟨.whole .new, ⟨bytes, kernel, 0⟩, []⟩
  next := Reads.next

/-! ## What a call delivers -/

def Got.unread (got : Got ρ) : List UInt8 := got.readState.unread ++ got.incoming.rest

/-- The bytes that are delivered, and those that are still unread. -/
structure Splits (unread : List UInt8) (kernel : Nat → Except Errno Nat) (got : Got ρ) : Prop where
  bytes : got.bytes ++ got.unread = unread
  same : got.incoming.kernel = kernel

variable {len : Nat} {readState : OwnedFdReadState} {i i' : Incoming}

theorem read_error (h : i.read size = (i', .error e)) :
    i.kernel i.calls = .error e ∧ i' = { i with calls := i.calls + 1 } := by
  unfold Incoming.read at h
  split at h
  · next hk =>
    cases h
    exact ⟨hk, rfl⟩
  · cases h

/-- A request takes its bytes from the front of what is left, and none only at the end. -/
theorem read_ok (h : i.read size = (i', .ok chunk)) (hsize : 0 < size) :
    chunk.1 ++ i'.rest = i.rest ∧ (chunk.1 = [] → i.rest = []) ∧ i'.kernel = i.kernel := by
  unfold Incoming.read at h
  split at h
  · cases h
  · next amount hk =>
    cases h
    refine ⟨List.take_append_drop _ _, fun hnil => ?_, rfl⟩
    have hlength := congrArg List.length hnil
    rw [List.length_take, List.length_nil] at hlength
    exact List.length_eq_zero_iff.mp (by omega)

theorem copyOut_spec (len : Nat) (readState : OwnedFdReadState) (i : Incoming) :
    Splits (readState.unread ++ i.rest) i.kernel (copyOut len readState i) ∧
      (copyOut len readState i).result = .ok (copyOut len readState i).bytes.length ∧
      (copyOut len readState i).bytes.length = min len readState.readAvailable := by
  obtain ⟨hbytes, hrest⟩ := readState.take_eq len
  have hlength : (readState.take len).1.length = min len readState.readAvailable := by
    rw [hbytes, List.length_take, readState.length_unread]
  refine ⟨⟨?_, rfl⟩, congrArg Except.ok hlength.symm, hlength⟩
  show (readState.take len).1 ++ ((readState.take len).2.unread ++ i.rest) = _
  rw [hbytes, hrest, ← List.append_assoc, List.take_append_drop]

/-- What `try_read` did: it delivered what it says, and nothing only at the end. -/
structure TryRead (unread : List UInt8) (kernel : Nat → Except Errno Nat) (len : Nat)
    (got : Got Nat) : Prop extends Splits unread kernel got where
  ok : ∀ amount, got.result = .ok amount →
    got.bytes.length = amount ∧ amount ≤ len ∧ (amount = 0 → len = 0 ∨ unread = [])
  error : ∀ e, got.result = .error e → got.bytes = [] ∧ ∃ i, kernel i = .error e

/-- The copy from a buffer that is not empty. -/
theorem tryRead_copyOut (h : readState.readAvailable ≠ 0)
    (hunread : readState.unread ++ i.rest = unread) :
    TryRead unread i.kernel len (copyOut len readState i) := by
  obtain ⟨hsplits, hresult, hlength⟩ := copyOut_spec len readState i
  refine ⟨hunread ▸ hsplits, fun amount hok => ?_, fun e herror => ?_⟩
  · rw [hresult] at hok
    cases hok
    exact ⟨rfl, by omega, fun hzero => .inl (by omega)⟩
  · rw [hresult] at herror
    cases herror

theorem tryReadImpl_spec (len : Nat) (readState : OwnedFdReadState) (i : Incoming) :
    TryRead (readState.unread ++ i.rest) i.kernel len (tryReadImpl true len readState i) := by
  unfold tryReadImpl
  rw [if_pos rfl]
  by_cases havailable : readState.readAvailable = 0
  · have hempty : readState.unread = [] :=
      List.length_eq_zero_iff.mp (readState.length_unread.trans havailable)
    rw [if_pos havailable, hempty, List.nil_append]
    split
    · next i' e hread =>
      obtain ⟨hk, rfl⟩ := read_error hread
      refine ⟨⟨?_, rfl⟩, fun _ hok => (by cases hok), fun e' herror => ?_⟩
      · simp [Got.unread, hempty]
      · cases herror
        exact ⟨rfl, _, hk⟩
    · next i' chunk hread =>
      obtain ⟨hrest, hend, hkernel⟩ := read_ok hread (by decide)
      split
      · next hzero =>
        have hnil := List.length_eq_zero_iff.mp hzero
        refine ⟨⟨?_, hkernel⟩, fun amount hok => ?_, fun _ herror => by cases herror⟩
        · rw [← hrest, hnil]
          simp [Got.unread, hempty]
        · cases hok
          exact ⟨rfl, Nat.zero_le _, fun _ => .inr (hend hnil)⟩
      · next hne =>
        rw [← hkernel]
        exact tryRead_copyOut hne (by rw [OwnedFdReadState.unread_fill, hrest])
  · rw [if_neg havailable]
    exact tryRead_copyOut havailable rfl

/-- What `read` did: all that was asked for, or all there is. -/
structure ReadAll (unread : List UInt8) (kernel : Nat → Except Errno Nat) (len : Nat)
    (got : Got Unit) : Prop extends Splits unread kernel got where
  ok : got.result = .ok () → got.bytes.length = len
  error : ∀ e, got.result = .error e →
    got.bytes.length < len ∧ (got.unread = [] ∨ ∃ i, kernel i = .error e)

theorem readImpl_spec (len : Nat) (readState : OwnedFdReadState) (i : Incoming) :
    ReadAll (readState.unread ++ i.rest) i.kernel len (readImpl true len readState i) := by
  -- the loop's own induction, on what is left of the caller's buffer
  induction len using Nat.strongRecOn generalizing readState i with
  | ind len ih =>
    unfold readImpl
    by_cases hlen : len = 0
    · rw [if_pos hlen]
      exact ⟨⟨rfl, rfl⟩, fun _ => hlen.symm, fun _ herror => by cases herror⟩
    · rw [if_neg hlen]
      have hgot := tryReadImpl_spec len readState i
      revert hgot
      generalize tryReadImpl true len readState i = got
      intro hgot
      dsimp only
      split
      · next e hresult =>
        obtain ⟨hnone, hkernel⟩ := hgot.error e hresult
        refine ⟨⟨hgot.bytes, hgot.same⟩, fun hok => (by cases hok), fun e' herror => ?_⟩
        cases herror
        rw [hnone]
        exact ⟨Nat.pos_of_ne_zero hlen, .inr hkernel⟩
      · next amount hresult =>
        obtain ⟨hlength, hle, hend⟩ := hgot.ok amount hresult
        split
        · next hzero =>
          refine ⟨⟨hgot.bytes, hgot.same⟩, fun hok => (by cases hok), fun e' _ => ?_⟩
          have hunread := hgot.bytes
          rw [(hend hzero).resolve_left hlen] at hunread
          exact ⟨by dsimp only; omega, .inl (List.append_eq_nil_iff.mp hunread).2⟩
        · next hne =>
          have hrest := ih (len - amount) (by omega) got.readState got.incoming
          rw [hgot.same] at hrest
          refine ⟨⟨?_, hrest.same⟩, fun hok => ?_, fun e herror => ?_⟩
          · refine (List.append_assoc _ _ _).trans (Eq.trans ?_ hgot.bytes)
            exact congrArg (got.bytes ++ ·) hrest.bytes
          · have hmore := hrest.ok hok
            rw [List.length_append]
            omega
          · obtain ⟨hmore, hwhy⟩ := hrest.error e herror
            refine ⟨?_, hwhy⟩
            rw [List.length_append]
            omega

/-- Unless a request fails, `read` returns `Ok` if there is enough to read. -/
theorem ReadAll.ok_iff (h : ReadAll unread kernel len got) (hkernel : ∀ i e, kernel i ≠ .error e) :
    got.result = .ok () ↔ len ≤ unread.length := by
  have hlength := congrArg List.length h.bytes
  rw [List.length_append] at hlength
  constructor
  · intro hok
    have := h.ok hok
    omega
  · intro hle
    cases hresult : got.result with
    | ok => rfl
    | error e =>
      obtain ⟨hlt, hnil | ⟨i, hi⟩⟩ := h.error e hresult
      · rw [hnil, List.length_nil] at hlength
        omega
      · exact absurd hi (hkernel i e)

/-! ## Runs -/

/-- What was delivered and what is unread make up the stream. -/
structure Inv (bytes : List UInt8) (kernel : Nat → Except Errno Nat) (s : Reads) : Prop where
  fd : s.reader.fd = true
  kernel : s.incoming.kernel = kernel
  delivered : s.delivered ++ (s.reader.readState.unread ++ s.incoming.rest) = bytes

section

variable {bytes : List UInt8} {kernel : Nat → Except Errno Nat} {s s' : Reads}

@[simp] theorem Reader.fd_setReadState (readState : OwnedFdReadState) (reader : Reader) :
    (reader.setReadState readState).fd = reader.fd := by
  cases reader <;> rfl

@[simp] theorem Reader.readState_setReadState (readState : OwnedFdReadState) (reader : Reader) :
    (reader.setReadState readState).readState = readState := by
  cases reader <;> rfl

section
variable (h : Inv bytes kernel s)
include h

theorem Inv.tryRead (len : Nat) :
    TryRead (s.reader.readState.unread ++ s.incoming.rest) kernel len (s.tryRead len) := by
  have hspec := tryReadImpl_spec len s.reader.readState s.incoming
  rwa [h.kernel, ← h.fd] at hspec

theorem Inv.read (len : Nat) :
    ReadAll (s.reader.readState.unread ++ s.incoming.rest) kernel len (s.read len) := by
  have hspec := readImpl_spec len s.reader.readState s.incoming
  rwa [h.kernel, ← h.fd] at hspec

theorem Inv.after (hgot : Splits (s.reader.readState.unread ++ s.incoming.rest) kernel got) :
    Inv bytes kernel (s.after got) where
  fd := by simp [Reads.after, h.fd]
  kernel := hgot.same
  delivered := by
    have hbytes := hgot.bytes
    simp only [Reads.after, Reader.readState_setReadState, List.append_assoc]
    rw [Got.unread] at hbytes
    rw [hbytes, h.delivered]

/-- **The step**: a call keeps the stream together. -/
theorem Inv.next (hs : s.next call = some s') : Inv bytes kernel s' := by
  cases call with
  | tryRead len =>
    cases hs
    exact h.after (h.tryRead len).toSplits
  | read len =>
    cases hs
    exact h.after (h.read len).toSplits
  | split =>
    obtain ⟨reader, hsplit, rfl⟩ := Option.map_eq_some_iff.mp hs
    obtain ⟨fd, incoming, delivered⟩ := s
    -- the read half takes the buffer of the stream with it
    cases fd with
    | whole stream =>
      cases hsplit
      exact ⟨h.fd, h.kernel, h.delivered⟩
    | half stream => cases hsplit

end

theorem inv_of_reaches (h : (reading bytes kernel).Reaches allowed s) : Inv bytes kernel s :=
  h.invariant ⟨rfl, rfl, rfl⟩ fun _ _ _ hinv _ hs => hinv.next hs

/-- **Delivery**: after any calls, what was delivered is a front part of the stream, and the
next `read` or `try_read` does what it says about the rest of it. -/
theorem reads_deliver (hkernel : ∀ i e, kernel i ≠ .error e)
    (h : (reading bytes kernel).Reaches (fun _ _ => True) s) :
    s.delivered <+: bytes ∧
    s.reader.readState.readUsed + s.reader.readState.readAvailable ≤ 16384 ∧
    ∀ len, 0 < len → ((s.read len).result = .ok () ↔ s.delivered.length + len ≤ bytes.length) ∧
      ((s.read len).result = .ok () → (s.read len).bytes.length = len) ∧
      ∃ amount ≤ len, (s.tryRead len).result = .ok amount ∧
        (s.tryRead len).bytes.length = amount ∧ (amount = 0 → s.delivered = bytes) := by
  have hinv := inv_of_reaches h
  have hlength := congrArg List.length hinv.delivered
  rw [List.length_append] at hlength
  refine ⟨⟨_, hinv.delivered⟩, s.reader.readState.used_le, fun len hlen => ⟨?_, ?_, ?_⟩⟩
  · rw [(hinv.read len).ok_iff hkernel]
    omega
  · exact (hinv.read len).ok
  · cases hresult : (s.tryRead len).result with
    | error e =>
      obtain ⟨i, hi⟩ := ((hinv.tryRead len).error e hresult).2
      exact absurd hi (hkernel i e)
    | ok amount =>
      obtain ⟨hbytes, hle, hend⟩ := (hinv.tryRead len).ok amount hresult
      refine ⟨amount, hle, rfl, hbytes, fun hzero => ?_⟩
      have hnil := (hend hzero).resolve_left (by omega)
      have hdelivered := hinv.delivered
      rwa [hnil, List.append_nil] at hdelivered

/-- Three bytes, cut after the second, and a split while one of them is in the buffer. -/
theorem reads_deliver_split : ∃ s : Reads, s.delivered = [1, 2] ∧ (s.read 1).result = .ok () := by
  have hrun : ((reading [1, 2, 3] fun _ => .ok 2).run (reading [1, 2, 3] fun _ => .ok 2).start
      [.tryRead 1, .split, .tryRead 5]).any (fun s => s.delivered == [1, 2]) = true := by
    decide +kernel
  obtain ⟨s, hreaches, hs⟩ := System.exists_run hrun
  have hdelivered := eq_of_beq hs
  refine ⟨s, hdelivered, ?_⟩
  have hread := (reads_deliver (by simp) hreaches).2.2 1 (by decide)
  rw [hread.1, hdelivered]
  decide

end

end Kimojio.FdStream
