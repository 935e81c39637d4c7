import Kimojio.RingBuffer

/-!
# Kimojio.Stream.ReadState

The buffer from which an `OwnedFdStream` reads. It is filled by one read of
the descriptor when it is empty, and its bytes are handed out piece by piece;
to its users it is the list of the bytes that it has not handed out
(`unread`).
-/

namespace Kimojio.FdStream

open RingBuffer (overwrite)

/-- The size of the buffer of an `OwnedFdStream`. -/
def readBufferSize : Nat := 16384

structure OwnedFdReadState where
  readUsed : Nat
  readAvailable : Nat
  readBuffer : List UInt8
  length_readBuffer : readBuffer.length = readBufferSize
  used_le : readUsed + readAvailable ≤ readBufferSize

namespace OwnedFdReadState

def new : OwnedFdReadState where
  readUsed := 0
  readAvailable := 0
  readBuffer := List.replicate readBufferSize 0
  length_readBuffer := List.length_replicate
  used_le := Nat.zero_le _

/-- The bytes that have not been handed out. -/
def unread (b : OwnedFdReadState) : List UInt8 :=
  (b.readBuffer.drop b.readUsed).take b.readAvailable

/-- A read of the socket gave `chunk`. -/
def fill (b : OwnedFdReadState) (chunk : List UInt8) (h : chunk.length ≤ readBufferSize) :
    OwnedFdReadState where
  readUsed := 0
  readAvailable := chunk.length
  readBuffer := overwrite b.readBuffer 0 chunk
  length_readBuffer := by
    rw [RingBuffer.length_overwrite (by rw [b.length_readBuffer, Nat.zero_add]; exact h)]
    exact b.length_readBuffer
  used_le := by omega

/-- Hands out as much as fits in `size` bytes. -/
def take (b : OwnedFdReadState) (size : Nat) : List UInt8 × OwnedFdReadState :=
  let tocopy := min size b.readAvailable
  ((b.readBuffer.drop b.readUsed).take tocopy,
    { b with
      readUsed := b.readUsed + tocopy
      readAvailable := b.readAvailable - tocopy
      used_le := by
        have := b.used_le
        omega })

theorem length_unread (b : OwnedFdReadState) : b.unread.length = b.readAvailable := by
  have := b.used_le
  have := b.length_readBuffer
  rw [unread, List.length_take, List.length_drop]
  omega

theorem unread_fill (b : OwnedFdReadState) (chunk : List UInt8)
    (h : chunk.length ≤ readBufferSize) : (b.fill chunk h).unread = chunk := by
  show ((overwrite b.readBuffer 0 chunk).drop 0).take chunk.length = chunk
  rw [List.drop_zero, overwrite, List.take_zero, List.nil_append, List.take_left]

theorem take_eq (b : OwnedFdReadState) (size : Nat) :
    (b.take size).1 = b.unread.take size ∧ (b.take size).2.unread = b.unread.drop size := by
  constructor
  · show (b.readBuffer.drop b.readUsed).take (min size b.readAvailable) = _
    rw [unread, List.take_take]
  · show (b.readBuffer.drop (b.readUsed + min size b.readAvailable)).take
      (b.readAvailable - min size b.readAvailable) = _
    rw [unread, List.drop_take, List.drop_drop]
    by_cases hle : size ≤ b.readAvailable
    · rw [Nat.min_eq_left hle]
    · have hnone : b.readAvailable - size = 0 := by omega
      rw [Nat.min_eq_right (by omega), Nat.sub_self, hnone, List.take_zero, List.take_zero]

theorem unread_eq_nil_iff (b : OwnedFdReadState) : b.unread = [] ↔ b.readAvailable = 0 := by
  rw [← b.length_unread, List.length_eq_zero_iff]

end OwnedFdReadState

end Kimojio.FdStream
