import Kimojio.Resolver.OwnReply
import Kimojio.Stream.ReadState

/-!
# Kimojio.Resolver.ReadFrame

`read_frame` over the two buffers that are below it: the reply buffer of the
connection, which is resized before each read and truncated after it, and the
buffer of the `OwnedFdStream`, which is filled by one read of the socket and
handed out piece by piece.

Here the loop is taken apart, so that every round of it is a state of the
system: a call stands before a round (`head`), or has made room for a read and
waits for the bytes (`reading`). The kernel cuts the stream of the peer as it
likes.

What comes out are the frames of the stream (`readFrame_frames`). In the
connection of `Kimojio.Resolver.Exchange` the buffer of the stream is the list
of its bytes (`FrameReader.toVarlink`), and the rounds are those of its
`readFrame` (`Reading.outcome_step`, `Reading.outcome_read`).
-/

namespace Kimojio.Resolver

open FdStream (OwnedFdReadState readBufferSize)
open RingBuffer (overwrite)
open VarlinkConnection (takeFrame copyOut readSize readFrame resumeReadFrame)

/-! ## the loop of `read_frame` -/

/-- A connection with both of its buffers. -/
structure FrameReader where
  readState : OwnedFdReadState
  input : List UInt8

inductive ReadPhase where
  /-- No call of `read_frame` is running. -/
  | idle
  /-- Before a round of the loop. -/
  | head
  /-- The reply buffer is resized; its first `filled` bytes have been read. -/
  | reading (filled : Nat)
  deriving DecidableEq

/-- A connection in use, with what the kernel has given so far and the results
of the calls. -/
structure Reading where
  reader : FrameReader
  phase : ReadPhase
  received : List UInt8
  ended : Bool
  results : List (Except ExchangeError (List UInt8))

inductive ReadLabel where
  | call
  | step
  /-- A read of the socket gives `chunk`, which is empty at the end. -/
  | read (chunk : List UInt8)
  /-- A read of the socket fails. -/
  | fail
  deriving DecidableEq

/-- No read fails. -/
def ReadLabel.succeeds : ReadLabel → Bool
  | .fail => false
  | _ => true

namespace FrameReader

/-- The connection of `Kimojio.Resolver.Exchange`. -/
def toVarlink (r : FrameReader) (socket : Nat) : VarlinkConnection :=
  ⟨socket, r.readState.unread, r.input⟩

/-- Copies into the reply buffer behind `filled` bytes, and truncates it. -/
def copy (r : FrameReader) (filled : Nat) : Nat × FrameReader :=
  let bytes := r.readState.take (r.input.length - filled)
  (bytes.1.length, ⟨bytes.2, (overwrite r.input filled bytes.1).take (filled + bytes.1.length)⟩)

end FrameReader

namespace Reading

/-- The call returns. -/
def returns (s : Reading) (reader : FrameReader) (r : Except ExchangeError (List UInt8)) :
    Reading :=
  { s with reader, phase := .idle, results := s.results ++ [r] }

/-- A round of the loop, up to the read. -/
def round (s : Reading) : Reading :=
  match (s.reader.toVarlink 0).takeFrame with
  | some (r, c) => s.returns { s.reader with input := c.input } r
  | none =>
    let input := s.reader.input
    let spare := List.replicate (s.reader.toVarlink 0).readSize 0
    { s with
      reader := { s.reader with input := input ++ spare }
      phase := .reading input.length }

/-- The end of a round: the bytes are in the buffer of the stream. -/
def finish (s : Reading) (filled : Nat) : Reading :=
  let r := s.reader.copy filled
  if r.1 = 0 then s.returns r.2 (.error .transport) else { s with reader := r.2, phase := .head }

def next (s : Reading) : ReadLabel → Option Reading
  | .call => if s.phase = .idle then some { s with phase := .head } else none
  | .step =>
    match s.phase with
    | .idle => none
    | .head => some s.round
    | .reading filled =>
      if s.reader.readState.readAvailable = 0 then none else some (s.finish filled)
  | .read chunk =>
    match s.phase with
    | .reading filled =>
      if s.reader.readState.readAvailable ≠ 0 ∨ (s.ended = true ∧ chunk ≠ []) then none
      else if h : chunk.length ≤ readBufferSize then
        if chunk = [] then
          let reader := { s.reader with input := s.reader.input.take filled }
          some ({ s with ended := true }.returns reader (.error .transport))
        else
          let reader := { s.reader with readState := s.reader.readState.fill chunk h }
          some ({ s with reader, received := s.received ++ chunk }.finish filled)
      else none
    | _ => none
  | .fail =>
    match s.phase with
    | .reading _ =>
      if s.reader.readState.readAvailable ≠ 0 then none
      else some (s.returns s.reader (.error .transport))
    | _ => none

end Reading

/-- A new connection. -/
def reading : System Reading ReadLabel where
  start := ⟨⟨.new, []⟩, .idle, [], false, []⟩
  next := Reading.next

/-! ## one round -/

/-- The first NUL byte of a reply buffer, where it is looked for, does not
stand behind the limit and is the last byte of the frame. -/
theorem terminator_ok {input : List UInt8} (h : input.length ≤ maxVarlinkReplySize + 1)
    (hidx : input.findIdx? (· = 0) = some terminator) :
    terminator ≤ maxVarlinkReplySize ∧ (input.take (terminator + 1)).getLast? = some 0 := by
  obtain ⟨hlt, hzero, -⟩ := List.findIdx?_eq_some_iff_getElem.mp hidx
  rw [decide_eq_true_eq] at hzero
  refine ⟨by omega, ?_⟩
  rw [List.take_succ_eq_append_getElem hlt, List.getLast?_concat, hzero]

/-- What is copied, as the list of bytes sees it. -/
theorem FrameReader.copy_eq {r : FrameReader} (h : filled ≤ r.input.length) :
    (r.copy filled).1 = min (r.input.length - filled) r.readState.unread.length ∧
      (r.copy filled).2.toVarlink 0 = (r.toVarlink 0).copyOut filled (r.input.length - filled) := by
  obtain ⟨hbytes, hunread⟩ := r.readState.take_eq (r.input.length - filled)
  simp only [copy, toVarlink, copyOut]
  rw [RingBuffer.take_overwrite h, hbytes, hunread, List.length_take, ← List.take_eq_take_min]
  refine ⟨rfl, congrArg (VarlinkConnection.mk 0 · _) ?_⟩
  rcases Nat.le_total (r.input.length - filled) r.readState.unread.length with hle | hle
  · rw [Nat.min_eq_left hle]
  · rw [Nat.min_eq_right hle, List.drop_length, List.drop_of_length_le hle]

namespace VarlinkConnection

/-- The end of a round of `read_frame`, with bytes in the buffer of the stream. -/
def finishRead (c : VarlinkConnection) (filled : Nat) :
    Poll (Except ExchangeError (List UInt8)) Nat × VarlinkConnection :=
  let size := c.input.length - filled
  if min size c.available.length = 0 then (.ready (.error .transport), c.copyOut filled size)
  else (c.copyOut filled size).readFrame

theorem readFrame_of_none {c : VarlinkConnection} (h : c.takeFrame = none) :
    c.readFrame =
      let grown := { c with input := c.input ++ List.replicate c.readSize 0 }
      if c.available = [] then (.pending c.input.length, grown)
      else grown.finishRead c.input.length := by
  rw [readFrame, h]
  simp [finishRead, copyOut]

theorem resumeReadFrame_eq (c : VarlinkConnection) (filled : Nat) (chunk : List UInt8) :
    c.resumeReadFrame filled chunk =
      if chunk = [] then (.ready (.error .transport), { c with input := c.input.take filled })
      else { c with available := chunk }.finishRead filled := rfl

end VarlinkConnection

/-! ## the results of a stream -/

/-- The bytes that are taken off the stream with these results. The bytes of
an unfinished frame that is too long are thrown away. -/
inductive Consumed : List (Except ExchangeError (List UInt8)) → List UInt8 → Prop where
  | nil : Consumed [] []
  | frame : 0 ∉ frame → frame.length ≤ maxVarlinkReplySize → Consumed results used →
      Consumed (.ok frame :: results) (frame ++ 0 :: used)
  | tooLong : 0 ∉ long → long.length = maxVarlinkReplySize + 1 → Consumed results used →
      Consumed (.error tooLong :: results) (long ++ used)
  | transport : (∀ r ∈ results, r = .error .transport) → Consumed (.error .transport :: results) []

theorem Consumed.append (h : Consumed results used) (hend : .error .transport ∉ results)
    (hmore : Consumed more bytes) : Consumed (results ++ more) (used ++ bytes) := by
  induction h with
  | nil => exact hmore
  | frame hframe hshort _ ih =>
    rw [List.append_assoc, List.cons_append, List.cons_append]
    exact .frame hframe hshort (ih fun hmem => hend (.tail _ hmem))
  | tooLong hlong hlength _ ih =>
    rw [List.append_assoc, List.cons_append]
    exact .tooLong hlong hlength (ih fun hmem => hend (.tail _ hmem))
  | transport => exact absurd (.head _) hend

theorem Consumed.ended (h : Consumed results used) :
    Consumed (results ++ [.error .transport]) used := by
  induction h with
  | nil => exact .transport nofun
  | frame hframe hshort _ ih => exact .frame hframe hshort ih
  | tooLong hlong hlength _ ih => exact .tooLong hlong hlength ih
  | transport hall =>
    refine .transport fun r hr => ?_
    rcases List.mem_append.mp hr with hr | hr
    · exact hall r hr
    · exact List.mem_singleton.mp hr

/-- What the `k`-th call has to return on a stream. -/
def expected (stream : List UInt8) (k : Nat) : Except ExchangeError (List UInt8) :=
  match (Frames.frames (· == 0) stream)[k]? with
  | some frame => if frame.length ≤ maxVarlinkReplySize then .ok frame else .error tooLong
  | none =>
    -- the stream ends before this frame does
    if k = (Frames.frames (· == 0) stream).length ∧
        maxVarlinkReplySize < (Frames.split (· == 0) stream).2.length then .error tooLong
    else .error .transport

theorem stop_eq_false {bytes : List UInt8} (h : 0 ∉ bytes) : ∀ a ∈ bytes, (a == 0) = false :=
  fun a ha => by
    rw [beq_eq_false_iff_ne]
    exact fun heq => h (heq ▸ ha)

theorem expected_frame (h : 0 ∉ frame) (rest : List UInt8) :
    expected (frame ++ 0 :: rest) 0 =
        (if frame.length ≤ maxVarlinkReplySize then .ok frame else .error tooLong) ∧
      ∀ k, expected (frame ++ 0 :: rest) (k + 1) = expected rest k := by
  have hstop := stop_eq_false h
  unfold expected
  rw [Frames.frames_cons hstop rfl, Frames.split_cons hstop rfl]
  simp

theorem expected_tooLong (h : 0 ∉ long)
    (hlength : long.length = maxVarlinkReplySize + 1) :
    expected (long ++ rest) 0 = .error tooLong := by
  obtain ⟨piece, hpiece, hprefix⟩ := Frames.head_pieces (stop_eq_false h) rest
  have hle := hprefix.length_le
  unfold expected
  unfold Frames.pieces at hpiece
  cases hframes : Frames.frames (· == 0) (long ++ rest) with
  | nil | cons =>
    rw [hframes] at hpiece
    cases hpiece
    simp
    omega

theorem expected_end (h : 0 ∉ rest) (hshort : rest.length ≤ maxVarlinkReplySize)
    (k : Nat) : expected rest k = .error .transport := by
  unfold expected Frames.frames
  rw [Frames.split_unfinished (stop_eq_false h)]
  simp
  omega

/-- The results are those of the stream, as long as no frame is too long. -/
theorem Consumed.expected
    (h : Consumed results used)
    (hend : .error .transport ∈ results → 0 ∉ rest ∧ rest.length ≤ maxVarlinkReplySize)
    (hr : results[k]? = some r)
    (hshort : ∀ j < k, ∀ piece, (Frames.pieces (· == 0) (used ++ rest))[j]? = some piece →
      piece.length ≤ maxVarlinkReplySize) : r = Resolver.expected (used ++ rest) k := by
  induction h generalizing k with
  | nil => cases hr
  | @frame frame results used hframe hlength _ ih =>
    rw [List.append_assoc, List.cons_append] at hshort ⊢
    obtain ⟨hfirst, hlater⟩ := expected_frame hframe (used ++ rest)
    cases k with
    | zero =>
      cases hr
      rw [hfirst, if_pos hlength]
    | succ k =>
      rw [hlater]
      refine ih (fun hmem => hend (.tail _ hmem)) hr fun j hj piece hpiece => ?_
      refine hshort (j + 1) (Nat.succ_lt_succ hj) piece ?_
      rw [Frames.pieces_cons (stop_eq_false hframe) rfl]
      exact hpiece
  | @tooLong long results used hlong hlength _ ih =>
    rw [List.append_assoc] at hshort ⊢
    cases k with
    | zero =>
      cases hr
      exact (expected_tooLong hlong hlength).symm
    | succ k =>
      obtain ⟨piece, hpiece, hprefix⟩ :=
        Frames.head_pieces (stop_eq_false hlong) (used ++ rest)
      have hle := hshort 0 (Nat.succ_pos k) piece hpiece
      have := hprefix.length_le
      omega
  | @transport results hall =>
    obtain ⟨hnone, hle⟩ := hend (.head _)
    rw [List.nil_append, expected_end hnone hle]
    cases k with
    | zero =>
      cases hr
      rfl
    | succ k => exact hall r (List.mem_of_getElem? hr)

namespace Reading

/-- What is bounded in every state: the reply buffer, and where a read puts
its bytes. -/
structure Bounded (s : Reading) : Prop where
  input_le : s.reader.input.length ≤ maxVarlinkReplySize + 1
  filled_le : ∀ filled, s.phase = .reading filled → filled ≤ maxVarlinkReplySize
  room : ∀ filled, s.phase = .reading filled →
    s.reader.input.length = filled + min (maxVarlinkReplySize + 1 - filled) varlinkReadChunk
  clean : ∀ filled, s.phase = .reading filled → 0 ∉ s.reader.input.take filled

variable {s s' : Reading}

theorem Bounded.filled_lt (h : s.Bounded) (hphase : s.phase = .reading filled) :
    filled < s.reader.input.length := by
  have hle := h.filled_le filled hphase
  have hroom := h.room filled hphase
  have hchunk : 0 < varlinkReadChunk := by decide
  omega

theorem Bounded.of_input_le (h : s.reader.input.length ≤ maxVarlinkReplySize + 1)
    (hphase : ∀ filled, s.phase ≠ .reading filled) : s.Bounded where
  input_le := h
  filled_le := fun filled heq => absurd heq (hphase filled)
  room := fun filled heq => absurd heq (hphase filled)
  clean := fun filled heq => absurd heq (hphase filled)

/-- The bytes that have been received and not been returned. -/
def held (s : Reading) : List UInt8 :=
  match s.phase with
  | .reading filled => s.reader.input.take filled ++ s.reader.readState.unread
  | _ => s.reader.input ++ s.reader.readState.unread

/-! ## the steps -/

/-- What a step can do, where the buffers are bounded. -/
inductive Steps (s : Reading) : ReadLabel → Reading → Prop where
  | call : s.phase = .idle → Steps s .call { s with phase := .head }
  | frame : s.phase = .head → s.reader.input = frame ++ 0 :: rest → 0 ∉ frame →
      Steps s .step (s.returns { s.reader with input := rest } (.ok frame))
  | tooLong : s.phase = .head → 0 ∉ s.reader.input → maxVarlinkReplySize < s.reader.input.length →
      Steps s .step (s.returns { s.reader with input := [] } (.error tooLong))
  | resize : s.phase = .head → 0 ∉ s.reader.input → s.reader.input.length ≤ maxVarlinkReplySize →
      Steps s .step { s with
        reader := { s.reader with
          input := s.reader.input ++ List.replicate
            (min (maxVarlinkReplySize + 1 - s.reader.input.length) varlinkReadChunk) 0 }
        phase := .reading s.reader.input.length }
  | copy : s.phase = .reading filled → r.input.length ≤ s.reader.input.length →
      r.input ++ r.readState.unread = s.reader.input.take filled ++ s.reader.readState.unread →
      Steps s .step { s with reader := r, phase := .head }
  | read : s.phase = .reading filled → s.reader.readState.unread = [] → s.ended = false →
      r.input.length ≤ s.reader.input.length →
      r.input ++ r.readState.unread = s.reader.input.take filled ++ chunk →
      Steps s (.read chunk) { s with reader := r, phase := .head, received := s.received ++ chunk }
  | endOfStream : s.phase = .reading filled → s.reader.readState.unread = [] →
      Steps s (.read []) ({ s with ended := true }.returns
        { s.reader with input := s.reader.input.take filled } (.error .transport))
  | fail : s.phase = .reading filled → Steps s .fail (s.returns s.reader (.error .transport))

/-- The end of a round: the bytes move from one buffer to the other. -/
theorem finish_eq (hlt : filled < s.reader.input.length)
    (havail : s.reader.readState.unread ≠ []) :
    ∃ r : FrameReader, s.finish filled = { s with reader := r, phase := .head } ∧
      r.input.length ≤ s.reader.input.length ∧
      r.input ++ r.readState.unread = s.reader.input.take filled ++ s.reader.readState.unread := by
  obtain ⟨hamount, hc⟩ := FrameReader.copy_eq (Nat.le_of_lt hlt)
  have hpos := List.length_pos_iff.mpr havail
  have hinput := congrArg VarlinkConnection.input hc
  have hunread := congrArg VarlinkConnection.available hc
  simp only [FrameReader.toVarlink, copyOut] at hinput hunread
  refine ⟨(s.reader.copy filled).2, ?_, ?_, ?_⟩
  · unfold finish
    rw [if_neg (by omega)]
  · rw [hinput, List.length_append, List.length_take, List.length_take]
    omega
  · rw [hinput, hunread, List.append_assoc, List.take_append_drop]

theorem round_steps (h : s.Bounded) (hphase : s.phase = .head) : Steps s .step s.round := by
  have htaken := takeFrame_taken (s.reader.toVarlink 0)
  unfold round
  generalize (s.reader.toVarlink 0).takeFrame = taken at htaken
  cases htaken with
  | frame hinput hframe => exact .frame hphase hinput hframe
  | tooLong hnone hlong =>
    refine .tooLong hphase ?_ hlong
    rwa [List.take_of_length_le (by exact h.input_le)] at hnone
  | none hnone hshort => exact .resize hphase hnone hshort

theorem next_steps (h : s.Bounded) (hs : s.next l = some s') : Steps s l s' := by
  cases l with
  | call =>
    obtain ⟨hphase, rfl⟩ := Option.ite_some_none_eq_some.mp hs
    exact .call hphase
  | step =>
    rw [next] at hs
    split at hs
    · cases hs
    · next hphase =>
      cases hs
      exact round_steps h hphase
    · next filled hphase =>
      obtain ⟨havail, hs⟩ := Option.ite_none_left_eq_some.mp hs
      cases hs
      have hunread := mt (s.reader.readState.unread_eq_nil_iff).mp havail
      obtain ⟨r, hfinish, hle, hheld⟩ := finish_eq (h.filled_lt hphase) hunread
      rw [hfinish]
      exact .copy hphase hle hheld
  | read chunk =>
    rw [next] at hs
    split at hs
    · next filled hphase =>
      obtain ⟨hguard, hs⟩ := Option.ite_none_left_eq_some.mp hs
      rw [not_or, Decidable.not_not] at hguard
      have hunread := (s.reader.readState.unread_eq_nil_iff).mpr hguard.1
      split at hs
      · next hsize =>
        split at hs
        · next hnil =>
          cases hs
          rw [hnil]
          exact .endOfStream hphase hunread
        · next hne =>
          cases hs
          have hended : s.ended = false := by
            rw [← Bool.not_eq_true]
            exact fun hended => hguard.2 ⟨hended, hne⟩
          have hfill := s.reader.readState.unread_fill chunk hsize
          let filledState : Reading := { s with
            reader := { s.reader with readState := s.reader.readState.fill chunk hsize }
            received := s.received ++ chunk }
          have hlt : filled < filledState.reader.input.length := h.filled_lt hphase
          obtain ⟨r, hfinish, hle, hheld⟩ := finish_eq hlt (hfill.symm ▸ hne)
          rw [hfinish]
          exact .read hphase hunread hended hle (hheld.trans (by rw [hfill]))
      · cases hs
    · cases hs
  | fail =>
    rw [next] at hs
    split at hs
    · next filled hphase =>
      obtain ⟨-, hs⟩ := Option.ite_none_left_eq_some.mp hs
      cases hs
      exact .fail hphase
    · cases hs

theorem Steps.bounded (h : s.Bounded) (hs : Steps s l s') : s'.Bounded := by
  have hle := h.input_le
  cases hs with
  | call | fail => exact .of_input_le hle nofun
  | @frame frame rest _ hinput =>
    refine .of_input_le ?_ nofun
    rw [hinput, List.length_append, List.length_cons] at hle
    show rest.length ≤ _
    omega
  | tooLong => exact .of_input_le (Nat.zero_le _) nofun
  | resize _ hnone hshort =>
    have hlength : (s.reader.input ++ List.replicate
        (min (maxVarlinkReplySize + 1 - s.reader.input.length) varlinkReadChunk)
        (0 : UInt8)).length = s.reader.input.length +
        min (maxVarlinkReplySize + 1 - s.reader.input.length) varlinkReadChunk := by
      rw [List.length_append, List.length_replicate]
    constructor
    · show (s.reader.input ++ _).length ≤ _
      omega
    · intro filled hphase
      cases hphase
      exact hshort
    · intro filled hphase
      cases hphase
      exact hlength
    · intro filled hphase
      cases hphase
      rw [List.take_left]
      exact hnone
  | copy _ hless | read _ _ _ hless => exact .of_input_le (Nat.le_trans hless hle) nofun
  | endOfStream =>
    refine .of_input_le (Nat.le_trans ?_ hle) nofun
    exact List.length_take_le' ..

/-! ## the connection of `Kimojio.Resolver.Exchange` -/

/-- What a call leaves that `read_frame` takes there: one more result, or a
wait for the socket. -/
def after (s : Reading) : Poll (Except ExchangeError (List UInt8)) Nat × VarlinkConnection →
    List (Except ExchangeError (List UInt8)) × Option Nat × VarlinkConnection
  | (.ready r, c) => (s.results ++ [r], none, c)
  | (.pending filled, c) => (s.results, some filled, c)

/-- What the call leaves without another read of the socket. -/
def outcome (s : Reading) :
    List (Except ExchangeError (List UInt8)) × Option Nat × VarlinkConnection :=
  let c := s.reader.toVarlink 0
  match s.phase with
  | .idle => (s.results, none, c)
  | .head => s.after c.readFrame
  | .reading filled =>
    s.after (if c.available = [] then (.pending filled, c) else c.finishRead filled)

theorem outcome_finish (h : filled ≤ s.reader.input.length) :
    (s.finish filled).outcome = s.after ((s.reader.toVarlink 0).finishRead filled) := by
  obtain ⟨hamount, hc⟩ := FrameReader.copy_eq h
  have hinput : (s.reader.toVarlink 0).input = s.reader.input := rfl
  have hunread : (s.reader.toVarlink 0).available = s.reader.readState.unread := rfl
  rw [finish, VarlinkConnection.finishRead, hamount, hinput, hunread, ← hc]
  split <;> rfl

theorem outcome_round (s : Reading) :
    s.round.outcome = s.after (s.reader.toVarlink 0).readFrame := by
  have htaken := takeFrame_taken (s.reader.toVarlink 0)
  cases htake : (s.reader.toVarlink 0).takeFrame with
  | some taken =>
    rw [htake] at htaken
    rw [round, htake, readFrame, htake]
    cases htaken <;> rfl
  | none =>
    rw [round, htake, VarlinkConnection.readFrame_of_none htake]
    rfl

/-- **The rounds are those of `read_frame`** on the list of bytes: a round
does not change what the call leaves. -/
theorem outcome_step (h : s.Bounded) (hs : s.next .step = some s') : s'.outcome = s.outcome := by
  rw [next] at hs
  split at hs
  · cases hs
  · next hphase =>
    cases hs
    rw [outcome_round, outcome, hphase]
  · next filled hphase =>
    obtain ⟨havail, hs⟩ := Option.ite_none_left_eq_some.mp hs
    cases hs
    have hunread : (s.reader.toVarlink 0).available ≠ [] :=
      mt s.reader.readState.unread_eq_nil_iff.mp havail
    rw [outcome_finish (Nat.le_of_lt (h.filled_lt hphase)), outcome, hphase]
    dsimp only
    rw [if_neg hunread]

/-- With the read that it waits for, the call goes on as there. -/
theorem outcome_read (h : s.Bounded) (hphase : s.phase = .reading filled)
    (hs : s.next (.read chunk) = some s') :
    s'.outcome = s.after ((s.reader.toVarlink 0).resumeReadFrame filled chunk) := by
  rw [next, hphase] at hs
  obtain ⟨-, hs⟩ := Option.ite_none_left_eq_some.mp hs
  rw [VarlinkConnection.resumeReadFrame_eq]
  split at hs
  · next hsize =>
    split at hs
    · next hnil =>
      cases hs
      rw [if_pos hnil]
      rfl
    · next hne =>
      cases hs
      rw [if_neg hne, outcome_finish (by exact Nat.le_of_lt (h.filled_lt hphase))]
      simp only [FrameReader.toVarlink, OwnedFdReadState.unread_fill]
      rfl
  · cases hs

/-! ## every byte is accounted for -/

/-- Every byte is returned, thrown away with an unfinished frame, or held. -/
structure Progress (s : Reading) : Prop where
  conserved : ∃ used, Consumed s.results used ∧ s.received = used ++ s.held
  settled : .error .transport ∈ s.results →
    s.ended = true ∧ 0 ∉ s.held ∧ s.held.length ≤ maxVarlinkReplySize

theorem held_of_idle (h : ∀ filled, s.phase ≠ .reading filled) :
    s.held = s.reader.input ++ s.reader.readState.unread := by
  unfold held
  split
  · next filled hphase => exact absurd hphase (h filled)
  · rfl

theorem held_of_reading (h : s.phase = .reading filled) :
    s.held = s.reader.input.take filled ++ s.reader.readState.unread := by
  rw [held, h]

/-- A step that returns nothing and receives nothing. -/
theorem Progress.of_held (h : s.Progress) (hresults : s'.results = s.results)
    (hreceived : s'.received = s.received) (hended : s'.ended = s.ended)
    (hheld : s'.held = s.held) : s'.Progress where
  conserved := by
    rw [hresults, hreceived, hheld]
    exact h.conserved
  settled := by
    rw [hresults, hended, hheld]
    exact h.settled

/-- A step that returns, while bytes are left that forbid the end. -/
theorem Progress.return (h : s.Progress) (hend : .error .transport ∉ s.results)
    (hresults : s'.results = s.results ++ [r]) (hreceived : s'.received = s.received)
    (hheld : s.held = bytes ++ s'.held) (hr : Consumed [r] bytes) (hne : r ≠ .error .transport) :
    s'.Progress where
  conserved := by
    obtain ⟨used, hused, hbytes⟩ := h.conserved
    refine ⟨used ++ bytes, ?_, ?_⟩
    · rw [hresults]
      exact hused.append hend hr
    · rw [hreceived, hbytes, hheld, List.append_assoc]
  settled := fun hmem => by
    rw [hresults] at hmem
    rcases List.mem_append.mp hmem with hmem | hmem
    · exact absurd hmem hend
    · exact absurd (List.mem_singleton.mp hmem).symm hne

theorem Steps.progress (hb : s.Bounded) (h : s.Progress) (hl : l.succeeds = true)
    (hs : Steps s l s') : s'.Progress := by
  cases hs with
  | call hphase =>
    refine h.of_held rfl rfl rfl ?_
    rw [held_of_idle (s := s) (by rw [hphase]; nofun)]
    rfl
  | @frame frame rest hphase hinput hframe =>
    have hheld := held_of_idle (s := s) (by rw [hphase]; nofun)
    rw [hinput] at hheld
    have hshort : frame.length ≤ maxVarlinkReplySize := by
      have hle := hb.input_le
      rw [hinput, List.length_append, List.length_cons] at hle
      omega
    -- the end has not been seen, since a NUL byte is held
    have hend : .error .transport ∉ s.results := fun hmem => by
      have hclean := (h.settled hmem).2.1
      rw [hheld] at hclean
      simp at hclean
    refine h.return hend rfl rfl ?_ (.frame hframe hshort .nil) nofun
    show s.held = (frame ++ [0]) ++ (rest ++ s.reader.readState.unread)
    rw [hheld]
    simp
  | tooLong hphase hnone hlong =>
    have hheld := held_of_idle (s := s) (by rw [hphase]; nofun)
    have hlength : s.reader.input.length = maxVarlinkReplySize + 1 :=
      Nat.le_antisymm hb.input_le hlong
    have hend : .error .transport ∉ s.results := fun hmem => by
      have hle := (h.settled hmem).2.2
      rw [hheld, List.length_append] at hle
      omega
    refine h.return hend rfl rfl ?_ (.tooLong hnone hlength .nil) nofun
    show s.held = (s.reader.input ++ []) ++ s.reader.readState.unread
    rw [hheld, List.append_nil]
  | resize hphase =>
    refine h.of_held rfl rfl rfl ?_
    rw [held_of_reading rfl, List.take_left, held_of_idle (s := s) (by rw [hphase]; nofun)]
  | copy hphase _ hheld =>
    refine h.of_held rfl rfl rfl ?_
    rw [held_of_reading hphase, ← hheld]
    rfl
  | @read filled chunk r hphase hunread hended _ hheld =>
    have hend : .error .transport ∉ s.results := fun hmem => by
      rw [(h.settled hmem).1] at hended
      cases hended
    obtain ⟨used, hused, hbytes⟩ := h.conserved
    refine ⟨⟨used, hused, ?_⟩, fun hmem => absurd hmem hend⟩
    show s.received ++ chunk = used ++ (r.input ++ r.readState.unread)
    rw [hbytes, held_of_reading hphase, hunread, List.append_nil, hheld, List.append_assoc]
  | @endOfStream filled hphase hunread =>
    have hheld : s.held = s.reader.input.take filled ++ s.reader.readState.unread :=
      held_of_reading hphase
    obtain ⟨used, hused, hbytes⟩ := h.conserved
    refine ⟨⟨used, hused.ended, hbytes.trans (congrArg _ hheld)⟩, fun _ => ⟨rfl, ?_⟩⟩
    show 0 ∉ s.reader.input.take filled ++ s.reader.readState.unread ∧
      (s.reader.input.take filled ++ s.reader.readState.unread).length ≤ _
    rw [hunread, List.append_nil]
    have hle := hb.filled_le filled hphase
    exact ⟨hb.clean filled hphase, Nat.le_trans (List.length_take_le ..) hle⟩
  | fail => cases hl

end Reading

theorem progress_of_reaches (h : reading.Reaches (fun _ l => l.succeeds = true) s) :
    s.Bounded ∧ s.Progress := by
  refine h.invariant (P := fun s => s.Bounded ∧ s.Progress) ?_ ?_
  · exact ⟨.of_input_le (Nat.zero_le _) nofun, ⟨[], .nil, rfl⟩, nofun⟩
  · intro s l s' hinv hl hs
    have hsteps := Reading.next_steps hinv.1 hs
    exact ⟨hsteps.bounded hinv.1, hsteps.progress hinv.1 hinv.2 hl⟩

/-- **Frames**: where no read of the socket fails, however the stream is cut
into reads, the reply buffer stays within one byte more than a frame, the
terminator that is found ends a frame within the limit, every byte is
accounted for, and the results are those of the stream up to the first frame
that is too long. -/
theorem readFrame_frames {s : Reading} (h : reading.Reaches (fun _ l => l.succeeds = true) s) :
    s.reader.input.length ≤ maxVarlinkReplySize + 1 ∧
      (∀ terminator, s.phase = .head → s.reader.input.findIdx? (· = 0) = some terminator →
        terminator ≤ maxVarlinkReplySize ∧
          (s.reader.input.take (terminator + 1)).getLast? = some 0) ∧
      (∃ used, Consumed s.results used ∧ s.received = used ++ s.held) ∧
      ∀ stream, s.received <+: stream → (s.ended = true → stream = s.received) →
        ∀ k r, s.results[k]? = some r →
          (∀ j < k, ∀ piece, (Frames.pieces (· == 0) stream)[j]? = some piece →
            piece.length ≤ maxVarlinkReplySize) → r = expected stream k := by
  obtain ⟨hb, hp⟩ := progress_of_reaches h
  refine ⟨hb.input_le, fun terminator _ hidx => terminator_ok hb.input_le hidx, hp.conserved, ?_⟩
  intro stream hprefix hended k r hr hshort
  obtain ⟨used, hused, hreceived⟩ := hp.conserved
  obtain ⟨more, rfl⟩ := hprefix
  rw [hreceived, List.append_assoc] at hshort ⊢
  refine hused.expected (fun hmem => ?_) hr hshort
  -- the end has been seen, so nothing follows
  obtain ⟨hend, hclean⟩ := hp.settled hmem
  have hmore : more = [] := List.append_cancel_left ((hended hend).trans (List.append_nil _).symm)
  rw [hmore, List.append_nil]
  exact hclean

/-- A frame, a part of a frame, and the end. -/
theorem readFrame_frames_two :
    ∃ s, reading.Reaches (fun _ l => l.succeeds = true) s ∧ s.results.length = 2 ∧
      ∀ k r, s.results[k]? = some r → r = expected [0x7b, 0x7d, 0, 0x7b] k := by
  have hrun : ((reading.restrict fun _ l => l.succeeds).run reading.start
      [.call, .step, .read [0x7b], .step, .read [0x7d, 0, 0x7b], .step, .call, .step,
        .read []]).any (fun s => decide (s.results.length = 2 ∧
          s.received = [0x7b, 0x7d, 0, 0x7b])) = true := by
    decide +kernel
  obtain ⟨s, hreach, hs⟩ := System.exists_restrict_run hrun
  obtain ⟨hlength, hreceived⟩ := of_decide_eq_true hs
  refine ⟨s, hreach, hlength, fun k r hr => ?_⟩
  refine (readFrame_frames hreach).2.2.2 _ (hreceived ▸ List.prefix_rfl) (fun _ => hreceived.symm)
    k r hr fun j hj piece hpiece => ?_
  have hpieces : Frames.pieces (· == 0) [0x7b, 0x7d, 0, 0x7b] = [[0x7b, 0x7d], [(0x7b : UInt8)]] :=
    rfl
  rw [hpieces] at hpiece
  have hmem := List.mem_of_getElem? hpiece
  simp only [List.mem_cons, List.not_mem_nil, or_false] at hmem
  rcases hmem with rfl | rfl <;> decide

end Kimojio.Resolver
