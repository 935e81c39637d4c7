import Kimojio.RingBuffer
import Mathlib.Algebra.Group.Nat.Defs

/-!
# Kimojio.Buffer.PrefixBuffer

Buffers to which data is added in front: the trait `PrefixBuffer` with its
provided methods, and its three implementations.

The initialized bytes of a buffer are `head .. tail` of its memory; a
`BufferView` has no `tail` and goes up to the end of its slice. A method
that panics returns nothing, and leaves the buffer as it is at that point.

The code adds a `usize` to `head` before it compares (`take`, `keep`). Where
the sum does not fit, the addition panics in a build with overflow checks
(`checked`) and wraps around in a build without.
-/

namespace Kimojio.Buffer

open RingBuffer (overwrite)

/-! ## Memory -/

/-- The number of values that a `usize` has. -/
def usizeCount : Nat := 2 ^ 64

/-- Memory that a slice or a box refers to. Its length is a `usize`. -/
@[ext]
structure Memory where
  bytes : List UInt8
  length_lt : bytes.length < usizeCount
  deriving DecidableEq

namespace Memory

def length (m : Memory) : Nat := m.bytes.length

def zeroed (size : UInt64) : Memory where
  bytes := List.replicate size.toNat 0
  length_lt := by
    rw [List.length_replicate]
    exact size.toNat_lt

/-- `copy_from_slice` into the part that starts at `start`. -/
def copyFromSlice (start : Nat) (value : List UInt8) (m : Memory) : Memory :=
  if h : start + value.length ≤ m.bytes.length then
    ⟨overwrite m.bytes start value, by
      rw [RingBuffer.length_overwrite h]
      exact m.length_lt⟩
  else m

/-- The part `.. stop`. -/
def upTo (stop : Nat) (m : Memory) : Memory where
  bytes := m.bytes.take stop
  length_lt := by
    have := m.length_lt
    rw [List.length_take]
    omega

end Memory

/-- `a + b` of two `usize`; `none` is a panic. -/
def addUsize (checked : Bool) (a b : Nat) : Option Nat :=
  if a + b < usizeCount then some (a + b)
  else if checked then none
  else some ((a + b) % usizeCount)

/-- The place `amount` after `head`, where it may be up to `limit`. -/
def advance (checked : Bool) (head amount limit : Nat) : Option Nat :=
  (addUsize checked head amount).filter (· ≤ limit)

/-- The place `size` before `head`. -/
def retreat (head size : Nat) : Option Nat := if size ≤ head then some (head - size) else none

/-! ## The trait -/

structure BufferView where
  head : Nat
  data : Memory
  deriving DecidableEq

/-- The required methods, and `reset`, which some buffers override. `reserve`
returns where the reserved part starts and ends; what the caller writes there
goes through `write`. -/
class PrefixBuffer (β : Type) where
  available : β → Nat
  asSlice : β → List UInt8
  len : β → Nat
  reserve : Nat → β → Option (Nat × Nat) × β
  take : Bool → Nat → β → Option Unit × β
  view : β → Option BufferView
  write : Nat → List UInt8 → β → β
  reset : Bool → β → Option Unit × β := fun checked b => take checked (len b) b

/-- What is done next, unless there was a panic. -/
def andThen (r : Option α × β) (next : α → β → Option γ × β) : Option γ × β :=
  match r with
  | (none, b) => (none, b)
  | (some a, b) => next a b

namespace PrefixBuffer

variable [PrefixBuffer β] (checked : Bool)

def u32FromLeBytes : List UInt8 → UInt32
  | [] => 0
  | b :: bs => b.toUInt32 + 256 * u32FromLeBytes bs

def takeU32 (b : β) : Option UInt32 × β :=
  if 4 ≤ len b then
    let result := u32FromLeBytes ((asSlice b).take 4)
    andThen (take checked 4 b) fun _ b => (some result, b)
  else (none, b)

/-- `reserve`, and a caller that writes all of what it gets. -/
def fill (value : List UInt8) (b : β) : Option Unit × β :=
  andThen (reserve value.length b) fun part b => (some (), write part.1 value b)

/-- The method `prefix`. -/
def prefixWith (value : List UInt8) (b : β) : Option Unit × β :=
  if value.length ≤ available b then fill value b else (none, b)

def set (value : List UInt8) (b : β) : Option Unit × β :=
  andThen (reset checked b) fun _ b => prefixWith value b

end PrefixBuffer

/-! ## `BufferView` -/

namespace BufferView

def new (data : Memory) : BufferView := ⟨data.length, data⟩

def withAvailable (available : Nat) (data : Memory) : Option BufferView :=
  if available ≤ data.length then some ⟨available, data⟩ else none

def withPrefix (data : Memory) (value : List UInt8) : Option BufferView :=
  if value.length ≤ data.length then
    let head := data.length - value.length
    some ⟨head, data.copyFromSlice head value⟩
  else none

instance : PrefixBuffer BufferView where
  available b := b.head
  asSlice b := b.data.bytes.drop b.head
  len b := b.data.length - b.head
  reserve size b :=
    match retreat b.head size with
    | none => (none, b)
    | some head => (some (head, b.head), { b with head })
  take checked amount b :=
    match advance checked b.head amount b.data.length with
    | none => (none, b)
    | some head => (some (), { b with head })
  view b := some ⟨b.head, b.data⟩
  write start value b := { b with data := b.data.copyFromSlice start value }

end BufferView

/-! ## `OwnedBuffer` and `StaticBuffer` -/

structure OwnedBuffer where
  head : Nat
  tail : Nat
  data : Memory
  deriving DecidableEq

namespace OwnedBuffer

def keep (checked : Bool) (size : Nat) (b : OwnedBuffer) : Option Unit × OwnedBuffer :=
  match advance checked b.head size b.tail with
  | none => (none, b)
  | some tail => (some (), { b with tail })

instance : PrefixBuffer OwnedBuffer where
  available b := b.head
  asSlice b := (b.data.bytes.take b.tail).drop b.head
  len b := b.tail - b.head
  reserve size b :=
    match retreat b.head size with
    | none => (none, b)
    | some head => (some (head, b.head), { b with head })
  take checked amount b :=
    match advance checked b.head amount b.tail with
    | none => (none, b)
    | some head => (some (), { b with head })
  reset _ b := (some (), { b with head := b.data.length, tail := b.data.length })
  view b := BufferView.withAvailable b.head (b.data.upTo b.tail)
  write start value b := { b with data := b.data.copyFromSlice start value }

def new (size : UInt64) : OwnedBuffer := ⟨size.toNat, size.toNat, .zeroed size⟩

def withValue (checked : Bool) (size : UInt64) (value : List UInt8) : Option Unit × OwnedBuffer :=
  PrefixBuffer.set checked value (new size)

end OwnedBuffer

theorem Memory.length_copyFromSlice (start : Nat) (value : List UInt8) (m : Memory) :
    (m.copyFromSlice start value).length = m.length := by
  unfold Memory.copyFromSlice
  split
  · next h => exact RingBuffer.length_overwrite h
  · rfl

theorem Memory.bytes_copyFromSlice {m : Memory} (h : start + value.length ≤ m.bytes.length) :
    (m.copyFromSlice start value).bytes = overwrite m.bytes start value := by
  rw [Memory.copyFromSlice, dif_pos h]

/-- An `OwnedBuffer` whose memory is an array of `size` bytes. -/
structure StaticBuffer (size : UInt64) extends OwnedBuffer where
  length_data : data.length = size.toNat
  deriving DecidableEq

namespace StaticBuffer

variable {size : UInt64}

def keep (checked : Bool) (amount : Nat) (b : StaticBuffer size) :
    Option Unit × StaticBuffer size :=
  match advance checked b.head amount b.tail with
  | none => (none, b)
  | some tail => (some (), { b with tail })

instance : PrefixBuffer (StaticBuffer size) where
  available b := b.head
  asSlice b := (b.data.bytes.take b.tail).drop b.head
  len b := b.tail - b.head
  reserve amount b :=
    match retreat b.head amount with
    | none => (none, b)
    | some head => (some (head, b.head), { b with head })
  take checked amount b :=
    match advance checked b.head amount b.tail with
    | none => (none, b)
    | some head => (some (), { b with head })
  reset _ b := (some (), { b with head := b.data.length, tail := b.data.length })
  view b := BufferView.withAvailable b.head (b.data.upTo b.tail)
  write start value b :=
    { b with
      data := b.data.copyFromSlice start value
      length_data := (Memory.length_copyFromSlice ..).trans b.length_data }

def new : StaticBuffer size where
  head := size.toNat
  tail := size.toNat
  data := .zeroed size
  length_data := List.length_replicate

def withValue (checked : Bool) (value : List UInt8) : Option Unit × StaticBuffer size :=
  PrefixBuffer.set checked value new

end StaticBuffer

end Kimojio.Buffer
