import Kimojio.Table
import Kimojio.Transition
import Kimojio.Ring.Completion
import Mathlib.Algebra.GroupWithZero.Nat
import Mathlib.Data.List.Induction

/-!
# Kimojio.CopyFile

`copy_file` of the `copyfile` example: the blocks of a file are copied by
futures that each read one block and then write it, a number of them at a
time, which complete in any order.

A block counts with the bytes that were read, however few they are, and what
a write returns is not looked at. A short transfer therefore leaves a gap in
the copy (`exists_copy_gap`), and so does a block size that the 32-bit length
of a request cannot say (`exists_copy_nothing`). Where the kernel transfers
what it is asked for, in blocks of less than 4 GiB, the copy is right
(`copyFile_copies`).

Blocks are started in order, so the future of a block is known by its number.
Of the buffers only their number matters: a buffer belongs to one future at a
time, which writes no more of it than it has read.
-/

namespace Kimojio.CopyFile

open Kimojio.Ring (Errno)

/-- The arguments of `copy_file`, with the content of the source. -/
structure Args where
  source : List UInt8
  blockSize : Nat
  maxBlocks : Option Nat
  inFlight : Nat

/-- The future of a block: it reads, it writes what it has read, or it is done
with the number of bytes that it has copied; and then it is handed out. -/
inductive Block where
  | reading
  | writing (data : List UInt8)
  | done (result : Except Errno Nat)
  | handedOut (bytesCopied : Nat)

/-- Where `copy_file` is. After an error it drains the futures, and returns
that error. -/
inductive Phase where
  | copying
  | draining (error : Errno)
  | returned (result : Except Errno Nat)

/-- `dest` has the bytes of the destination by their offsets. -/
structure Copying where
  phase : Phase
  totalBytesCopied : Nat
  copyComplete : Bool
  bufferPool : Nat
  blocks : List Block
  dest : Nat → Option UInt8

inductive CopyLabel where
  | issue
  /-- The kernel answers the read or the write of a block. -/
  | read (block : Nat) (answer : Except Errno Nat)
  | write (block : Nat) (answer : Except Errno Nat)
  /-- A future that is done is handed out, or there is none left. -/
  | next (block : Nat)
  | finished

/-- In `in_flight_ops`. -/
def Block.inFlight : Block → Bool
  | .handedOut _ => false
  | _ => true

namespace Args

variable (a : Args)

def shouldCopyMore (s : Copying) : Bool :=
  !s.copyComplete && match a.maxBlocks with
    | some max => decide (s.blocks.length < max)
    | none => true

/-- The head of the loop has started what it can. -/
def waits (s : Copying) : Bool := s.bufferPool == 0 || !a.shouldCopyMore s

/-- `buf.len() as u32`: the length that a request asks for. -/
def requestLen (len : Nat) : Nat := len % 2 ^ 32

/-- What the read of a block asks for, as far as the source has it. -/
def bytesOf (block : Nat) : List UInt8 :=
  (a.source.drop (block * a.blockSize)).take (requestLen a.blockSize)

/-- A read that asks for something, and is not at the end of the file, returns
one byte at least. -/
def readBlock (block : Nat) : Except Errno Nat → Option Block
  | .error e => some (.done (.error e))
  | .ok 0 => if a.bytesOf block = [] then some (.done (.ok 0)) else none
  | .ok n =>
    if n ≤ (a.bytesOf block).length then some (.writing ((a.bytesOf block).take n)) else none

/-- The bytes of `piece`, from an offset on. -/
def store (dest : Nat → Option UInt8) (offset : Nat) (piece : List UInt8) : Nat → Option UInt8 :=
  fun i => if offset ≤ i ∧ i < offset + piece.length then piece[i - offset]? else dest i

/-- What is written, and the future after it: the amount is not compared with
`bytes_read`. -/
def writeBlock (block : Nat) (data : List UInt8) (dest : Nat → Option UInt8) :
    Except Errno Nat → Option (Block × (Nat → Option UInt8))
  | .error e => some (.done (.error e), dest)
  | .ok n =>
    if n ≤ requestLen data.length then
      some (.done (.ok data.length), store dest (block * a.blockSize) (data.take n))
    else none

def next (s : Copying) : CopyLabel → Option Copying
  | .issue =>
    match s.phase, s.bufferPool with
    | .copying, bufferPool + 1 =>
      if a.shouldCopyMore s then
        some { s with bufferPool, blocks := s.blocks ++ [.reading] }
      else none
    | _, _ => none
  | .read b answer =>
    match s.blocks[b]? with
    | some .reading =>
      (a.readBlock b answer).map fun block => { s with blocks := s.blocks.set b block }
    | _ => none
  | .write b answer =>
    match s.blocks[b]? with
    | some (.writing data) => (a.writeBlock b data s.dest answer).map fun r =>
      { s with blocks := s.blocks.set b r.1, dest := r.2 }
    | _ => none
  | .next b =>
    match s.phase, s.blocks[b]? with
    | .copying, some (.done (.ok n)) =>
      if a.waits s then
        some { s with
          copyComplete := s.copyComplete || n == 0
          totalBytesCopied := s.totalBytesCopied + n
          bufferPool := s.bufferPool + 1
          blocks := s.blocks.set b (.handedOut n) }
      else none
    | .copying, some (.done (.error e)) =>
      if a.waits s then
        some { s with phase := .draining e, blocks := s.blocks.set b (.handedOut 0) }
      else none
    | .draining _, some (.done _) => some { s with blocks := s.blocks.set b (.handedOut 0) }
    | _, _ => none
  | .finished =>
    match s.phase with
    | .copying =>
      if a.waits s ∧ s.blocks.countP Block.inFlight = 0 then
        some { s with phase := .returned (.ok s.totalBytesCopied) }
      else none
    | .draining e =>
      if s.blocks.countP Block.inFlight = 0 then
        some { s with phase := .returned (.error e) }
      else none
    | .returned _ => none

/-- `copy_file` on a destination with any content. -/
def copying (dest : Nat → Option UInt8) : System Copying CopyLabel where
  start := ⟨.copying, 0, false, a.inFlight, [], dest⟩
  next s l :=
    match s.phase with
    | .returned _ => none
    | _ => a.next s l

/-- How much of the source is to be copied. -/
def rangeLen : Nat :=
  match a.maxBlocks with
  | some max => min a.source.length (max * a.blockSize)
  | none => a.source.length

/-- The kernel transfers what it is asked for, as far as the source has it. -/
def transfersAll (s : Copying) : CopyLabel → Bool
  | .read b (.ok n) => n == (a.bytesOf b).length
  | .write b (.ok n) =>
    match s.blocks[b]? with
    | some (.writing data) => n == requestLen data.length
    | _ => true
  | _ => true

end Args

/-! ## What the futures have done -/

/-- The block is in the destination. -/
def Block.wrote : Block → Bool
  | .done (.ok _) | .handedOut _ => true
  | _ => false

/-- What a future knows of its block. -/
def Args.Knows (a : Args) (b : Nat) : Block → Prop
  | .writing data => data = a.bytesOf b
  | .done (.ok n) | .handedOut n => n = (a.bytesOf b).length
  | _ => True

def Block.counted : Block → Nat
  | .handedOut n => n
  | _ => 0

theorem Block.counted_eq_zero {block : Block} (h : block.inFlight = true) : block.counted = 0 := by
  cases block with
  | handedOut n => cases h
  | _ => rfl

structure Args.Inv (a : Args) (dest : Nat → Option UInt8) (s : Copying) : Prop where
  knows : ∀ b block, s.blocks[b]? = some block → a.Knows b block
  buffers : s.bufferPool + s.blocks.countP Block.inFlight = a.inFlight
  total : s.totalBytesCopied = (s.blocks.map Block.counted).sum
  limit : ∀ max, a.maxBlocks = some max → s.blocks.length ≤ max
  complete : s.copyComplete = true → a.source.length ≤ s.blocks.length * a.blockSize
  dest_eq : ∀ i, s.dest i =
    if i < a.source.length ∧ (s.blocks[i / a.blockSize]?).any Block.wrote then a.source[i]?
    else dest i

section

variable {a : Args} {dest : Nat → Option UInt8} {s : Copying}

/-- A write of what was read asks for all of it. -/
theorem requestLen_bytesOf (a : Args) (b : Nat) :
    Args.requestLen (a.bytesOf b).length = (a.bytesOf b).length := by
  refine Nat.mod_eq_of_lt (Nat.lt_of_le_of_lt ?_ (Nat.mod_lt a.blockSize (by decide)))
  rw [Args.bytesOf, List.length_take]
  exact Nat.min_le_left _ _

/-- A block size that fits is the length that a read asks for. -/
theorem bytesOf_of_lt (hsize : a.blockSize < 2 ^ 32) (b : Nat) :
    a.bytesOf b = (a.source.drop (b * a.blockSize)).take a.blockSize := by
  rw [Args.bytesOf, Args.requestLen, Nat.mod_eq_of_lt hsize]

theorem length_bytesOf (hsize : a.blockSize < 2 ^ 32) (b : Nat) :
    (a.bytesOf b).length = min a.blockSize (a.source.length - b * a.blockSize) := by
  rw [bytesOf_of_lt hsize, List.length_take, List.length_drop]

/-- The offsets of a block. -/
theorem mem_block_iff (hblock : 0 < a.blockSize) (hsize : a.blockSize < 2 ^ 32) (b i : Nat) :
    (b * a.blockSize ≤ i ∧ i < b * a.blockSize + (a.bytesOf b).length) ↔
      i < a.source.length ∧ i / a.blockSize = b := by
  rw [Nat.div_eq_iff hblock, length_bytesOf hsize]
  omega

theorem sum_set {l : List Nat} (h : l[i]? = some 0) (n : Nat) : (l.set i n).sum = l.sum + n := by
  obtain ⟨hi, hzero⟩ := List.getElem?_eq_some_iff.mp h
  have hset := (List.set_perm_cons_eraseIdx hi n).sum_nat
  have hall := (List.getElem_cons_eraseIdx_perm hi).sum_nat
  rw [List.sum_cons] at hset hall
  omega

/-- The blocks that are counted in full cover the source from its start. -/
theorem sum_counted (hsize : a.blockSize < 2 ^ 32) (blocks : List Block)
    (h : ∀ b block, blocks[b]? = some block → block.counted = (a.bytesOf b).length) :
    (blocks.map Block.counted).sum = min a.source.length (blocks.length * a.blockSize) := by
  induction blocks using List.reverseRecOn with
  | nil => simp
  | append_singleton blocks block ih =>
    have hlast := h blocks.length block (by simp)
    have hsum := ih fun b block hb => by
      have hlt := (List.getElem?_eq_some_iff.mp hb).1
      exact h b block (by rw [List.getElem?_append_left hlt, hb])
    rw [length_bytesOf hsize] at hlast
    simp only [List.map_append, List.sum_append, hsum, List.map_cons, List.map_nil,
      List.sum_singleton, hlast, List.length_append, List.length_singleton, Nat.add_mul]
    omega

namespace Args.Inv

theorem start (a : Args) (dest : Nat → Option UInt8) : a.Inv dest (a.copying dest).start where
  knows := by simp [copying]
  buffers := by simp [copying]
  total := rfl
  limit := by simp [copying]
  complete := nofun
  dest_eq := by simp [copying]

theorem issue (h : a.Inv dest s) (hpool : s.bufferPool = bufferPool + 1)
    (hmore : a.shouldCopyMore s = true) :
    a.Inv dest { s with bufferPool, blocks := s.blocks ++ [.reading] } where
  knows b block hb := by
    rcases mem_of_push hb with hb | ⟨-, rfl⟩
    · exact h.knows b block hb
    · trivial
  buffers := by
    have hbuffers := h.buffers
    simp only [List.countP_append, List.countP_singleton, Block.inFlight, if_true]
    omega
  total := by simpa [Block.counted] using h.total
  limit max hmax := by
    simp only [shouldCopyMore, hmax, Bool.and_eq_true, decide_eq_true_eq] at hmore
    simpa [Nat.succ_le_iff] using hmore.2
  complete := by simp_all [shouldCopyMore]
  dest_eq i := by
    have hany : (s.blocks ++ [.reading])[i / a.blockSize]?.any Block.wrote =
        s.blocks[i / a.blockSize]?.any Block.wrote := by
      rw [List.getElem?_append]
      split
      · rfl
      · next hge =>
        rw [List.getElem?_eq_none (Nat.not_lt.mp hge), List.getElem?_singleton]
        split <;> rfl
    rw [hany]
    exact h.dest_eq i

/-- A future goes on with its block. If that is written now, so are its bytes; if it
is handed out, they are counted. -/
theorem set (h : a.Inv dest s) (hb : s.blocks[b]? = some old) (hold : old.inFlight = true)
    (hwrote : old.wrote = true → new.wrote = true) (hknows : a.Knows b new)
    (hpool : bufferPool + (if new.inFlight then 1 else 0) = s.bufferPool + 1)
    (hcomplete : copyComplete = true → a.source.length ≤ s.blocks.length * a.blockSize)
    (dest' : Nat → Option UInt8) (hdest : ∀ i, dest' i =
      if (i < a.source.length ∧ i / a.blockSize = b) ∧ new.wrote then a.source[i]?
      else s.dest i) :
    a.Inv dest ⟨s.phase, s.totalBytesCopied + new.counted, copyComplete, bufferPool,
      s.blocks.set b new, dest'⟩ where
  knows b' block hb' := by
    rcases mem_of_set hb' with ⟨rfl, rfl⟩ | ⟨-, hb'⟩
    · exact hknows
    · exact h.knows b' block hb'
  buffers := by
    have hbuffers := h.buffers
    have hcount := countP_set_toNat hb Block.inFlight new
    rw [hold] at hcount
    dsimp only
    cases hnew : new.inFlight <;> simp [hnew] at hpool hcount <;> omega
  total := by
    rw [List.map_set, sum_set (by simp [hb, Block.counted_eq_zero hold]), ← h.total]
  limit := by simpa using h.limit
  complete := by simpa using hcomplete
  dest_eq i := by
    dsimp only
    rw [hdest i, h.dest_eq i]
    by_cases heq : i / a.blockSize = b
    · subst heq
      simp only [List.getElem?_set_self (List.getElem?_eq_some_iff.mp hb).1, hb, Option.any_some]
      by_cases hnew : new.wrote = true
      · by_cases hlt : i < a.source.length <;> simp [hnew, hlt]
      · have hnot : old.wrote = false := by simpa using fun hwas => hnew (hwrote hwas)
        simp [hnew, hnot]
    · simp [heq, List.getElem?_set_ne (Ne.symm heq)]

/-- A future that is done is handed out. -/
theorem handOut (h : a.Inv dest s) (hblock : 0 < a.blockSize) (hsize : a.blockSize < 2 ^ 32)
    (hb : s.blocks[b]? = some (.done (.ok n))) :
    a.Inv dest { s with
      copyComplete := s.copyComplete || n == 0
      totalBytesCopied := s.totalBytesCopied + n
      bufferPool := s.bufferPool + 1
      blocks := s.blocks.set b (.handedOut n) } := by
  have hlen : n = (a.bytesOf b).length := h.knows b _ hb
  have hknows : a.Knows b (.handedOut n) := hlen
  refine h.set hb rfl (fun _ => rfl) hknows rfl (fun hcomplete => ?_) s.dest fun i => ?_
  · obtain hold | hzero : s.copyComplete = true ∨ n = 0 := by simpa using hcomplete
    · exact h.complete hold
    · -- a block without bytes begins after the end of the source
      have hmul := Nat.mul_le_mul_right a.blockSize
        (Nat.le_of_lt (List.getElem?_eq_some_iff.mp hb).1)
      rw [length_bytesOf hsize] at hlen
      omega
  · rw [h.dest_eq]
    by_cases heq : i / a.blockSize = b <;> by_cases hsize : i < a.source.length <;>
      simp [heq, hsize, hb, Block.wrote]

end Args.Inv

/-- A full read knows its block; without a write it is done only where there is nothing
to copy. -/
theorem readBlock_of_full (h : a.readBlock b answer = some block)
    (hfull : ∀ n, answer = .ok n → n = (a.bytesOf b).length) :
    block.inFlight = true ∧ a.Knows b block ∧ (block.wrote = true → a.bytesOf b = []) := by
  unfold Args.readBlock at h
  split at h
  · cases h
    exact ⟨rfl, trivial, nofun⟩
  · split at h
    · next hnil =>
      cases h
      exact ⟨rfl, by rw [Args.Knows, hnil]; rfl, fun _ => hnil⟩
    · cases h
  · next n _ =>
    split at h
    · cases h
      have hall : (a.bytesOf b).take n = a.bytesOf b := by
        rw [hfull n rfl, List.take_length]
      exact ⟨rfl, hall, nofun⟩
    · cases h

/-- A full write puts its block into the destination. -/
theorem writeBlock_of_full (h : a.writeBlock b (a.bytesOf b) d answer = some r)
    (hfull : ∀ n, answer = .ok n → n = (a.bytesOf b).length) :
    r.1.inFlight = true ∧ a.Knows b r.1 ∧
      r.2 = if r.1.wrote then Args.store d (b * a.blockSize) (a.bytesOf b) else d := by
  unfold Args.writeBlock at h
  split at h
  · cases h
    exact ⟨rfl, trivial, rfl⟩
  · next n =>
    split at h
    · cases h
      refine ⟨rfl, rfl, ?_⟩
      rw [hfull n rfl, List.take_length]
      rfl
    · cases h

/-- The bytes of a block that is written are those of the source. -/
theorem store_bytesOf (hblock : 0 < a.blockSize) (hsize : a.blockSize < 2 ^ 32)
    (d : Nat → Option UInt8) (b i : Nat) :
    Args.store d (b * a.blockSize) (a.bytesOf b) i =
      if i < a.source.length ∧ i / a.blockSize = b then a.source[i]? else d i := by
  have hmem := mem_block_iff hblock hsize b i
  rw [Args.store, if_congr hmem rfl rfl]
  split
  · next hin =>
    obtain ⟨hge, hlt⟩ := hmem.mpr hin
    rw [length_bytesOf hsize] at hlt
    rw [bytesOf_of_lt hsize, List.getElem?_take_of_lt (by omega), List.getElem?_drop]
    congr 1
    omega
  · rfl

/-- Everything is handed out, and nothing more is to be started. -/
theorem Args.Inv.copied (h : a.Inv dest s) (hblock : 0 < a.blockSize)
    (hsize : a.blockSize < 2 ^ 32) (hflight : 0 < a.inFlight) (hwaits : a.waits s = true)
    (hcount : s.blocks.countP Block.inFlight = 0) :
    s.totalBytesCopied = a.rangeLen ∧
      ∀ i, s.dest i = if i < a.rangeLen then a.source[i]? else dest i := by
  have hout (b : Nat) (block : Block) (hb : s.blocks[b]? = some block) :
      block.wrote = true ∧ block.counted = (a.bytesOf b).length := by
    have hnot := List.countP_eq_zero.mp hcount _ (List.mem_of_getElem? hb)
    have hknows := h.knows b block hb
    cases block <;> simp_all [Block.inFlight, Block.wrote, Block.counted, Args.Knows]
  have hrange : min a.source.length (s.blocks.length * a.blockSize) = a.rangeLen := by
    have hbuffers := h.buffers
    have hmore : a.shouldCopyMore s = false := by
      have hpool : (s.bufferPool == 0) = false := by simp; omega
      simpa [Args.waits, hpool] using hwaits
    cases hcomplete : s.copyComplete with
    | true =>
      have hend := h.complete hcomplete
      unfold Args.rangeLen
      split
      · next max hmax =>
        have := Nat.mul_le_mul_right a.blockSize (h.limit max hmax)
        omega
      · omega
    | false =>
      simp only [Args.shouldCopyMore, hcomplete, Bool.not_false, Bool.true_and] at hmore
      split at hmore
      · next max hmax =>
        have hle := h.limit max hmax
        have hlen : s.blocks.length = max := by simp at hmore; omega
        simp [Args.rangeLen, hmax, hlen]
      · cases hmore
  refine ⟨by rw [h.total, sum_counted hsize _ fun b block hb => (hout b block hb).2, hrange],
    fun i => ?_⟩
  have hany : (s.blocks[i / a.blockSize]?).any Block.wrote = true ↔
      i < s.blocks.length * a.blockSize := by
    rw [← Nat.div_lt_iff_lt_mul hblock]
    cases hb : s.blocks[i / a.blockSize]? with
    | none => simpa using hb
    | some block => simpa [(hout _ block hb).1] using (List.getElem?_eq_some_iff.mp hb).1
  simp only [h.dest_eq, ← hrange, hany, Nat.lt_min]

/-- What holds of `copy_file`, as long as it has met no error. -/
def Args.Sound (a : Args) (dest : Nat → Option UInt8) (s : Copying) : Prop :=
  match s.phase with
  | .copying => a.Inv dest s
  | .returned (.ok n) =>
    n = a.rangeLen ∧ ∀ i, s.dest i = if i < n then a.source[i]? else dest i
  | _ => True

theorem Args.Inv.sound (h : a.Inv dest s) (hphase : s.phase = .copying) : a.Sound dest s := by
  unfold Args.Sound
  rw [hphase]
  exact h

/-- A step with full transfers, before any error. -/
theorem Args.Inv.next (h : a.Inv dest s) (hphase : s.phase = .copying) (hblock : 0 < a.blockSize)
    (hsize : a.blockSize < 2 ^ 32) (hflight : 0 < a.inFlight)
    (hfull : a.transfersAll s l = true) (hs : a.next s l = some s') : a.Sound dest s' := by
  cases l with
  | issue =>
    simp only [Args.next] at hs
    split at hs <;> try cases hs
    next hpool =>
      split at hs <;> cases hs
      next hmore => exact (h.issue hpool hmore).sound hphase
  | read b answer =>
    simp only [Args.next] at hs
    split at hs <;> try cases hs
    next hb =>
      obtain ⟨block, hread, rfl⟩ := Option.map_eq_some_iff.mp hs
      obtain ⟨hin, hknows, hnil⟩ := readBlock_of_full hread fun n hn => by
        subst hn
        simpa [Args.transfersAll] using hfull
      have hkeep (i : Nat) :
          ¬((i < a.source.length ∧ i / a.blockSize = b) ∧ block.wrote = true) := by
        rintro ⟨hmem, hwrote⟩
        have hlt := (mem_block_iff hblock hsize b i).mpr hmem
        simp only [hnil hwrote, List.length_nil] at hlt
        omega
      have hset := h.set hb rfl nofun hknows (by rw [hin]; rfl) h.complete s.dest
        fun i => (if_neg (hkeep i)).symm
      rw [Block.counted_eq_zero hin] at hset
      exact hset.sound hphase
  | write b answer =>
    simp only [Args.next] at hs
    split at hs <;> try cases hs
    next data hb =>
      obtain ⟨r, hwrite, rfl⟩ := Option.map_eq_some_iff.mp hs
      obtain rfl : data = a.bytesOf b := h.knows b _ hb
      obtain ⟨hin, hknows, hd⟩ := writeBlock_of_full hwrite fun n hn => by
        subst hn
        simpa [Args.transfersAll, hb, requestLen_bytesOf] using hfull
      have hset := h.set hb rfl nofun hknows (by rw [hin]; rfl) h.complete r.2 fun i => by
        rw [hd]
        cases hwrote : r.1.wrote with
        | true => simpa using store_bytesOf hblock hsize s.dest b i
        | false => simp
      rw [Block.counted_eq_zero hin] at hset
      exact hset.sound hphase
  | next b =>
    simp only [Args.next] at hs
    split at hs <;> try cases hs
    · next hb =>
      split at hs <;> cases hs
      exact (h.handOut hblock hsize hb).sound hphase
    · split at hs <;> cases hs
      trivial
    · next hdraining _ => cases hphase.symm.trans hdraining
  | finished =>
    simp only [Args.next, hphase] at hs
    split at hs <;> cases hs
    next hend =>
      obtain ⟨htotal, hdest⟩ := h.copied hblock hsize hflight hend.1 hend.2
      exact ⟨htotal, htotal ▸ hdest⟩

/-- After an error, that error is returned. -/
theorem phase_of_draining (hphase : s.phase = .draining e) (hs : a.next s l = some s') :
    s'.phase = .draining e ∨ s'.phase = .returned (.error e) := by
  cases l <;> simp only [Args.next, hphase] at hs <;> try cases hs
  all_goals split at hs <;> try cases hs
  all_goals try obtain ⟨_, -, rfl⟩ := Option.map_eq_some_iff.mp hs
  all_goals simp_all

theorem Args.sound_of_reaches (hblock : 0 < a.blockSize) (hsize : a.blockSize < 2 ^ 32)
    (hflight : 0 < a.inFlight)
    (h : (a.copying dest).Reaches (fun s l => a.transfersAll s l = true) s) : a.Sound dest s := by
  refine h.invariant (P := a.Sound dest) (Inv.sound (.start a dest) rfl)
    fun s l s' hinv hallowed hs => ?_
  simp only [Args.copying] at hs
  cases hphase : s.phase with
  | copying =>
    rw [hphase] at hs
    have hinv : a.Inv dest s := by simpa only [Args.Sound, hphase] using hinv
    exact hinv.next hphase hblock hsize hflight hallowed hs
  | draining e =>
    rw [hphase] at hs
    obtain hphase' | hphase' := phase_of_draining hphase hs <;>
      simp only [Args.Sound, hphase']
  | returned result =>
    rw [hphase] at hs
    cases hs

/-- If the kernel transfers all that it is asked for, and a block is less than
4 GiB, `copy_file` returns the length of the range, and the destination has its
bytes and is otherwise as it was, whatever order the blocks complete in. -/
theorem copyFile_copies (a : Args) (hblock : 0 < a.blockSize) (hsize : a.blockSize < 2 ^ 32)
    (hflight : 0 < a.inFlight) (dest : Nat → Option UInt8) (s : Copying)
    (h : (a.copying dest).Reaches (fun s l => a.transfersAll s l = true) s) (n : Nat)
    (hs : s.phase = .returned (.ok n)) :
    n = a.rangeLen ∧ ∀ i, s.dest i = if i < n then a.source[i]? else dest i := by
  have hsound := a.sound_of_reaches hblock hsize hflight h
  unfold Args.Sound at hsound
  rw [hs] at hsound
  exact hsound

end

/-! ## Three bytes in blocks of two -/

def three : Args := ⟨[1, 2, 3], 2, none, 1⟩

def Copying.returnedOk (s : Copying) : Option Nat :=
  match s.phase with
  | .returned (.ok n) => some n
  | _ => none

theorem phase_of_returnedOk {s : Copying} (h : s.returnedOk = some n) :
    s.phase = .returned (.ok n) := by
  unfold Copying.returnedOk at h
  split at h <;> cases h
  assumption

theorem copyFile_copies_three :
    ∃ s, (three.copying fun _ => none).Reaches (fun s l => three.transfersAll s l = true) s ∧
      s.phase = .returned (.ok 3) ∧
      (3 = three.rangeLen ∧ ∀ i, s.dest i = if i < 3 then three.source[i]? else none) := by
  have hrun : (((three.copying fun _ => none).restrict three.transfersAll).run
      (three.copying fun _ => none).start
      [.issue, .read 0 (.ok 2), .write 0 (.ok 2), .next 0, .issue, .read 1 (.ok 1),
        .write 1 (.ok 1), .next 1, .issue, .read 2 (.ok 0), .next 2, .finished]).any
      (fun s => s.returnedOk == some 3) = true := by
    decide +kernel
  obtain ⟨s, h, hs⟩ := System.exists_restrict_run hrun
  have hphase := phase_of_returnedOk (eq_of_beq hs)
  exact ⟨s, h, hphase,
    copyFile_copies three (by decide) (by decide) (by decide) (fun _ => none) s h 3 hphase⟩

/-- A read of the first block that returns one byte of two: the copy ends with
success, two bytes are counted, and the second one is missing. -/
theorem exists_copy_gap : ∃ s, (three.copying fun _ => none).Reaches (fun _ _ => True) s ∧
      s.phase = .returned (.ok 2) ∧ three.rangeLen = 3 ∧ s.dest 1 = none := by
  have hrun : ((three.copying fun _ => none).run (three.copying fun _ => none).start
      [.issue, .read 0 (.ok 1), .write 0 (.ok 1), .next 0, .issue, .read 1 (.ok 1),
        .write 1 (.ok 1), .next 1, .issue, .read 2 (.ok 0), .next 2, .finished]).any
      (fun s => s.returnedOk == some 2 && s.dest 1 == none) = true := by
    decide +kernel
  obtain ⟨s, h, hs⟩ := System.exists_run hrun
  simp only [Bool.and_eq_true, beq_iff_eq] at hs
  exact ⟨s, h, phase_of_returnedOk hs.1, rfl, hs.2⟩

def wide : Args := ⟨[1, 2, 3], 2 ^ 32, none, 1⟩

/-- In blocks of 4 GiB every read asks for no bytes: nothing is copied, with success,
although the kernel transfers what it is asked for. -/
theorem exists_copy_nothing :
    ∃ s, (wide.copying fun _ => none).Reaches (fun s l => wide.transfersAll s l = true) s ∧
      s.phase = .returned (.ok 0) := by
  have hrun : (((wide.copying fun _ => none).restrict wide.transfersAll).run
      (wide.copying fun _ => none).start
      [.issue, .read 0 (.ok 0), .next 0, .finished]).any
      (fun s => s.returnedOk == some 0) = true := by
    decide +kernel
  obtain ⟨s, h, hs⟩ := System.exists_restrict_run hrun
  exact ⟨s, h, phase_of_returnedOk (eq_of_beq hs)⟩

end Kimojio.CopyFile
