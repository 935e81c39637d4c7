import Kimojio.Buffer.PrefixBuffer

/-!
# Kimojio.Buffer.Refinement

The three prefix buffers are compared with one abstract buffer: a list of
bytes, and the number of bytes that are available in front of it.

`StaticBuffer` and `BufferView` do what `OwnedBuffer` does (`Implements`), and
`OwnedBuffer` does what the abstract buffer does (`Holds`), as long as no sum
of two `usize` overflows unnoticed and no `set` is larger than the buffer
(`Represents.call`).
-/

namespace Kimojio.Buffer

open RingBuffer (overwrite)

/-! ## One buffer -/

inductive AnyBuffer where
  | view (b : BufferView)
  | static (size : UInt64) (b : StaticBuffer size)
  | owned (b : OwnedBuffer)
  deriving DecidableEq

/-- The operations. A caller of `reserve` writes all of what it gets. -/
inductive Op where
  | reserve (value : List UInt8)
  | prefixWith (value : List UInt8)
  | take (amount : UInt64)
  | takeU32
  | keep (size : UInt64)
  | set (value : List UInt8)
  | reset
  deriving DecidableEq, Repr

inductive Output where
  | panicked
  | done
  | word (value : UInt32)
  deriving DecidableEq, Repr

namespace Output

def ofUnit : Option Unit → Output
  | none => .panicked
  | some () => .done

def ofWord : Option UInt32 → Output
  | none => .panicked
  | some value => .word value

end Output

/-- The operations of the trait. -/
def callTrait [PrefixBuffer β] (checked : Bool) (b : β) : Op → Option (Output × β)
  | .reserve value => some ((PrefixBuffer.fill value b).map Output.ofUnit id)
  | .prefixWith value => some ((PrefixBuffer.prefixWith value b).map Output.ofUnit id)
  | .take amount => some ((PrefixBuffer.take checked amount.toNat b).map Output.ofUnit id)
  | .takeU32 => some ((PrefixBuffer.takeU32 checked b).map Output.ofWord id)
  | .set value => some ((PrefixBuffer.set checked value b).map Output.ofUnit id)
  | .reset => some ((PrefixBuffer.reset checked b).map Output.ofUnit id)
  | .keep _ => none

namespace AnyBuffer

/-- One operation; a view has no `keep`. -/
def call (checked : Bool) (op : Op) : AnyBuffer → Option (Output × AnyBuffer)
  | .view b => (callTrait checked b op).map (Prod.map id .view)
  | .static size b =>
    match op with
    | .keep amount => some ((b.keep checked amount.toNat).map Output.ofUnit (.static size))
    | op => (callTrait checked b op).map (Prod.map id (.static size))
  | .owned b =>
    match op with
    | .keep amount => some ((b.keep checked amount.toNat).map Output.ofUnit .owned)
    | op => (callTrait checked b op).map (Prod.map id .owned)

def asSlice : AnyBuffer → List UInt8
  | .view b => PrefixBuffer.asSlice b
  | .static _ b => PrefixBuffer.asSlice b
  | .owned b => PrefixBuffer.asSlice b

def len : AnyBuffer → Nat
  | .view b => PrefixBuffer.len b
  | .static _ b => PrefixBuffer.len b
  | .owned b => PrefixBuffer.len b

def available : AnyBuffer → Nat
  | .view b => PrefixBuffer.available b
  | .static _ b => PrefixBuffer.available b
  | .owned b => PrefixBuffer.available b

def viewOf : AnyBuffer → Option BufferView
  | .view b => PrefixBuffer.view b
  | .static _ b => PrefixBuffer.view b
  | .owned b => PrefixBuffer.view b

def write (start : Nat) (value : List UInt8) : AnyBuffer → AnyBuffer
  | .view b => .view (PrefixBuffer.write start value b)
  | .static size b => .static size (PrefixBuffer.write start value b)
  | .owned b => .owned (PrefixBuffer.write start value b)

end AnyBuffer

/-! ## The abstract buffer -/

structure AbstractBuffer where
  capacity : Nat
  bytes : List UInt8
  available : Nat
  /-- Whether it has the operation `keep`. -/
  keeps : Bool
  fits : available + bytes.length ≤ capacity

namespace AbstractBuffer

/-- Puts `value` in front. -/
def push (value : List UInt8) (a : AbstractBuffer) : Output × AbstractBuffer :=
  if h : value.length ≤ a.available then
    (.done, { a with
      bytes := value ++ a.bytes
      available := a.available - value.length
      fits := by
        have := a.fits
        rw [List.length_append]
        omega })
  else (.panicked, a)

/-- Gives the first `n` bytes back. -/
def drop (n : Nat) (a : AbstractBuffer) (h : n ≤ a.bytes.length) : AbstractBuffer :=
  { a with
    bytes := a.bytes.drop n
    available := a.available + n
    fits := by
      have := a.fits
      rw [List.length_drop]
      omega }

/-- Replaces everything by `value`. -/
def replace (value : List UInt8) (a : AbstractBuffer) (h : value.length ≤ a.capacity) :
    AbstractBuffer :=
  { a with
    bytes := value
    available := a.capacity - value.length
    fits := by omega }

def call (a : AbstractBuffer) : Op → Option (Output × AbstractBuffer)
  | .reserve value => some (a.push value)
  | .prefixWith value => some (a.push value)
  | .take amount =>
    some (if h : amount.toNat ≤ a.bytes.length then (.done, a.drop amount.toNat h)
      else (.panicked, a))
  | .takeU32 =>
    some (if h : 4 ≤ a.bytes.length then
        (.word (PrefixBuffer.u32FromLeBytes (a.bytes.take 4)), a.drop 4 h)
      else (.panicked, a))
  | .keep size =>
    if a.keeps then
      some (if size.toNat ≤ a.bytes.length then
          (.done, { a with
            bytes := a.bytes.take size.toNat
            fits := by
              have := a.fits
              rw [List.length_take]
              omega })
        else (.panicked, a))
    else none
  | .set value =>
    some (if h : value.length ≤ a.capacity then (.done, a.replace value h) else (.panicked, a))
  | .reset => some (.done, a.replace [] (Nat.zero_le _))

/-- The view of a buffer: the same contents, and nothing behind them. -/
def view (a : AbstractBuffer) : AbstractBuffer where
  capacity := a.available + a.bytes.length
  bytes := a.bytes
  available := a.available
  keeps := false
  fits := Nat.le_refl _

end AbstractBuffer

/-! ## What the three buffers have in common -/

/-- The bytes `head .. tail` of the memory are initialized. -/
structure OwnedBuffer.Valid (b : OwnedBuffer) : Prop where
  head_le : b.head ≤ b.tail
  tail_le : b.tail ≤ b.data.length

/-- A buffer does what `OwnedBuffer` does, seen through `rep`. -/
structure Implements (β : Type) [PrefixBuffer β] (rep : β → OwnedBuffer) : Prop where
  available : ∀ b : β, PrefixBuffer.available b = (rep b).head
  asSlice : ∀ b : β, PrefixBuffer.asSlice b = PrefixBuffer.asSlice (rep b)
  len : ∀ b : β, PrefixBuffer.len b = PrefixBuffer.len (rep b)
  reserve : ∀ (b : β) size, (PrefixBuffer.reserve size b).map id rep =
    PrefixBuffer.reserve size (rep b)
  take : ∀ (b : β) checked amount, (PrefixBuffer.take checked amount b).map id rep =
    PrefixBuffer.take checked amount (rep b)
  write : ∀ (b : β) start value, rep (PrefixBuffer.write start value b) =
    PrefixBuffer.write start value (rep b)
  reset : ∀ (b : β) checked, (rep b).Valid → (PrefixBuffer.reset checked b).map id rep =
    PrefixBuffer.reset checked (rep b)

/-- Where a sum is known to fit, or to be noticed, it is compared as a number. -/
theorem advance_eq (hlimit : limit < usizeCount)
    (hadd : checked = true ∨ head + amount < usizeCount) :
    advance checked head amount limit =
      if head + amount ≤ limit then some (head + amount) else none := by
  unfold advance addUsize
  split
  · rw [Option.filter_some]
    simp only [decide_eq_true_eq]
  · next hbig =>
    rw [if_pos (hadd.resolve_right hbig), if_neg (by omega)]
    rfl

theorem OwnedBuffer.implements : Implements OwnedBuffer id where
  available _ := rfl
  asSlice _ := rfl
  len _ := rfl
  reserve _ _ := rfl
  take _ _ _ := rfl
  write _ _ _ := rfl
  reset _ _ _ := rfl

theorem StaticBuffer.implements : Implements (StaticBuffer size) StaticBuffer.toOwnedBuffer where
  available _ := rfl
  asSlice _ := rfl
  len _ := rfl
  reserve b amount := by
    simp only [PrefixBuffer.reserve]
    cases retreat b.head amount <;> rfl
  take b checked amount := by
    simp only [PrefixBuffer.take]
    cases advance checked b.head amount b.tail <;> rfl
  write _ _ _ := rfl
  reset _ _ _ := rfl

/-- A view, as a buffer that goes up to the end of its memory. -/
def BufferView.toOwnedBuffer (b : BufferView) : OwnedBuffer := ⟨b.head, b.data.length, b.data⟩

theorem BufferView.implements : Implements BufferView BufferView.toOwnedBuffer where
  available _ := rfl
  asSlice b := by
    show b.data.bytes.drop b.head = (b.data.bytes.take b.data.bytes.length).drop b.head
    rw [List.take_length]
  len _ := rfl
  reserve b size := by
    simp only [PrefixBuffer.reserve, toOwnedBuffer]
    cases retreat b.head size <;> rfl
  take b checked amount := by
    simp only [PrefixBuffer.take, toOwnedBuffer]
    cases advance checked b.head amount b.data.length <;> rfl
  write b start value := by
    show OwnedBuffer.mk b.head (b.data.copyFromSlice start value).length _ = _
    rw [Memory.length_copyFromSlice]
    rfl
  reset b checked hv := by
    have hlt : b.data.length < usizeCount := b.data.length_lt
    have hle : b.head ≤ b.data.length := hv.head_le
    have hsum : b.head + (b.data.length - b.head) = b.data.length := by omega
    simp only [PrefixBuffer.reset, toOwnedBuffer]
    rw [advance_eq hlt (.inr (by omega)), hsum, if_pos (Nat.le_refl _)]
    rfl

theorem andThen_map {next : α → β → Option γ × β}
    (hnext : ∀ a b, (next a b).map id rep = next' a (rep b)) :
    (andThen r next).map id rep = andThen (r.map id rep) next' := by
  obtain ⟨_ | a, b⟩ := r
  · rfl
  · exact hnext a b

namespace Implements

variable [PrefixBuffer β] {rep : β → OwnedBuffer}

section
variable (h : Implements β rep)
include h

theorem fill (value : List UInt8) (b : β) :
    (PrefixBuffer.fill value b).map id rep = PrefixBuffer.fill value (rep b) := by
  unfold PrefixBuffer.fill
  rw [← h.reserve, ← andThen_map]
  intro part b
  rw [← h.write]
  rfl

theorem prefixWith (value : List UInt8) (b : β) :
    (PrefixBuffer.prefixWith value b).map id rep = PrefixBuffer.prefixWith value (rep b) := by
  unfold PrefixBuffer.prefixWith
  rw [h.available]
  show _ = if value.length ≤ (rep b).head then _ else _
  split
  · exact h.fill value b
  · rfl

theorem takeU32 (checked : Bool) (b : β) :
    (PrefixBuffer.takeU32 checked b).map id rep = PrefixBuffer.takeU32 checked (rep b) := by
  unfold PrefixBuffer.takeU32
  rw [h.len, h.asSlice]
  split
  · rw [← h.take]
    exact andThen_map fun _ _ => rfl
  · rfl

theorem set (checked : Bool) (value : List UInt8) (hv : (rep b).Valid) :
    (PrefixBuffer.set checked value b).map id rep = PrefixBuffer.set checked value (rep b) := by
  unfold PrefixBuffer.set
  rw [← h.reset b checked hv, ← andThen_map]
  exact fun _ b => h.prefixWith value b

theorem callTrait (checked : Bool) (op : Op) (hv : (rep b).Valid) :
    (callTrait checked b op).map (Prod.map id rep) = Buffer.callTrait checked (rep b) op := by
  cases op with
  | reserve value => exact congrArg (fun r => some (r.map Output.ofUnit id)) (h.fill value b)
  | prefixWith value =>
    exact congrArg (fun r => some (r.map Output.ofUnit id)) (h.prefixWith value b)
  | take amount =>
    exact congrArg (fun r => some (r.map Output.ofUnit id)) (h.take b checked amount.toNat)
  | takeU32 => exact congrArg (fun r => some (r.map Output.ofWord id)) (h.takeU32 checked b)
  | keep size => rfl
  | set value => exact congrArg (fun r => some (r.map Output.ofUnit id)) (h.set checked value hv)
  | reset => exact congrArg (fun r => some (r.map Output.ofUnit id)) (h.reset b checked hv)

end

end Implements

/-! ## The abstract buffer of a buffer -/

/-- `a` is what the buffer `b` holds. -/
structure Holds (b : OwnedBuffer) (a : AbstractBuffer) : Prop where
  valid : b.Valid
  capacity : a.capacity = b.data.length
  bytes : a.bytes = PrefixBuffer.asSlice b
  available : a.available = b.head

/-- What the caller may ask for, so that the code does as the abstract buffer:
sums that fit in a `usize`, unless they are checked, and a `set` that fits in
the buffer. -/
def OwnedBuffer.accepts (checked : Bool) (b : OwnedBuffer) : Op → Bool
  | .take amount => checked || b.head + amount.toNat < usizeCount
  | .keep size => checked || b.head + size.toNat < usizeCount
  | .set value => value.length ≤ b.data.length
  | _ => true

/-- A piece that ends where the contents start. -/
theorem slice_overwrite (hstart : start + piece.length = head) (hhead : head ≤ tail)
    (htail : tail ≤ data.length) :
    ((overwrite data start piece).take tail).drop start = piece ++ (data.take tail).drop head := by
  have hfront : (data.take start).length = start := by
    rw [List.length_take]
    omega
  rw [List.drop_take, List.drop_take, overwrite, List.append_assoc, List.drop_left' hfront,
    List.take_append, List.take_of_length_le (by omega), hstart]
  have hrest : tail - start - piece.length = tail - head := by omega
  rw [hrest]

namespace OwnedBuffer

variable {b : OwnedBuffer} {checked : Bool}

theorem fill_eq (value : List UInt8) : PrefixBuffer.fill value b =
    if value.length ≤ b.head then
      (some (), ⟨b.head - value.length, b.tail, b.data.copyFromSlice (b.head - value.length) value⟩)
    else (none, b) := by
  simp only [PrefixBuffer.fill, PrefixBuffer.reserve, retreat]
  by_cases hle : value.length ≤ b.head
  · rw [if_pos hle, if_pos hle]
    rfl
  · rw [if_neg hle, if_neg hle]
    rfl

theorem take_eq (hv : b.Valid) (hadd : checked = true ∨ b.head + amount < usizeCount) :
    PrefixBuffer.take checked amount b =
      if b.head + amount ≤ b.tail then (some (), { b with head := b.head + amount })
      else (none, b) := by
  have hlimit : b.tail < usizeCount := Nat.lt_of_le_of_lt hv.tail_le b.data.length_lt
  simp only [PrefixBuffer.take, advance_eq hlimit hadd]
  by_cases hle : b.head + amount ≤ b.tail
  · rw [if_pos hle, if_pos hle]
  · rw [if_neg hle, if_neg hle]

theorem keep_eq (hv : b.Valid) (hadd : checked = true ∨ b.head + size < usizeCount) :
    b.keep checked size =
      if b.head + size ≤ b.tail then (some (), { b with tail := b.head + size })
      else (none, b) := by
  have hlimit : b.tail < usizeCount := Nat.lt_of_le_of_lt hv.tail_le b.data.length_lt
  simp only [keep, advance_eq hlimit hadd]
  by_cases hle : b.head + size ≤ b.tail
  · rw [if_pos hle, if_pos hle]
  · rw [if_neg hle, if_neg hle]

end OwnedBuffer

namespace Holds

variable {b : OwnedBuffer} {a : AbstractBuffer} {checked : Bool}

theorem length_bytes (h : Holds b a) : a.bytes.length = b.tail - b.head := by
  have htail : b.tail ≤ b.data.bytes.length := h.valid.tail_le
  rw [h.bytes]
  show ((b.data.bytes.take b.tail).drop b.head).length = _
  rw [List.length_drop, List.length_take, Nat.min_eq_left htail]

theorem len_eq (h : Holds b a) : PrefixBuffer.len b = a.bytes.length := h.length_bytes.symm

theorem drop (h : Holds b a) (hn : n ≤ a.bytes.length) :
    Holds { b with head := b.head + n } (a.drop n hn) where
  valid := ⟨by
    have := h.length_bytes
    have := h.valid.head_le
    show b.head + n ≤ b.tail
    omega, h.valid.tail_le⟩
  capacity := h.capacity
  bytes := by
    show a.bytes.drop n = (b.data.bytes.take b.tail).drop (b.head + n)
    rw [h.bytes, ← List.drop_drop]
    rfl
  available := congrArg (· + n) h.available

/-- The buffer is empty, and all of it is available. -/
theorem reset (h : Holds b a) : Holds { b with head := b.data.length, tail := b.data.length }
      (a.replace [] (Nat.zero_le _)) where
  valid := ⟨Nat.le_refl _, Nat.le_refl _⟩
  capacity := h.capacity
  bytes := by
    show [] = (b.data.bytes.take b.data.bytes.length).drop b.data.bytes.length
    rw [List.take_length, List.drop_length]
  available := h.capacity

/-- Both do the same, and hold the same then. -/
def Agrees (r : Output × OwnedBuffer) (r' : Output × AbstractBuffer) : Prop :=
  r.1 = r'.1 ∧ Holds r.2 r'.2

section
variable (h : Holds b a)
include h

theorem push (value : List UInt8) :
    Agrees ((PrefixBuffer.fill value b).map Output.ofUnit id) (a.push value) := by
  have hhead := h.valid.head_le
  have htail := h.valid.tail_le
  rw [OwnedBuffer.fill_eq, AbstractBuffer.push]
  by_cases hle : value.length ≤ b.head
  · have hroom : b.head - value.length + value.length ≤ b.data.bytes.length := by
      show _ ≤ b.data.length
      omega
    rw [if_pos hle, dif_pos (h.available.symm ▸ hle)]
    refine ⟨rfl, ⟨?_, ?_⟩, ?_, ?_, ?_⟩
    · show b.head - value.length ≤ b.tail
      omega
    · show b.tail ≤ (b.data.copyFromSlice (b.head - value.length) value).length
      rw [Memory.length_copyFromSlice]
      exact htail
    · show a.capacity = (b.data.copyFromSlice (b.head - value.length) value).length
      rw [Memory.length_copyFromSlice]
      exact h.capacity
    · show value ++ a.bytes =
        ((b.data.copyFromSlice (b.head - value.length) value).bytes.take b.tail).drop
          (b.head - value.length)
      rw [Memory.bytes_copyFromSlice hroom,
        slice_overwrite (Nat.sub_add_cancel hle) hhead htail, h.bytes]
      rfl
    · exact congrArg (· - value.length) h.available
  · rw [if_neg hle, dif_neg (h.available.symm ▸ hle)]
    exact ⟨rfl, h⟩

theorem prefixWith (value : List UInt8) :
    Agrees ((PrefixBuffer.prefixWith value b).map Output.ofUnit id) (a.push value) := by
  have hsame : PrefixBuffer.prefixWith value b = PrefixBuffer.fill value b := by
    show (if value.length ≤ b.head then PrefixBuffer.fill value b else (none, b)) = _
    rw [OwnedBuffer.fill_eq]
    split
    · rfl
    · rfl
  rw [hsame]
  exact h.push value

theorem take (hadd : checked = true ∨ b.head + amount < usizeCount) :
    Agrees ((PrefixBuffer.take checked amount b).map Output.ofUnit id)
      (if hn : amount ≤ a.bytes.length then (.done, a.drop amount hn) else (.panicked, a)) := by
  have hiff : b.head + amount ≤ b.tail ↔ amount ≤ a.bytes.length := by
    have := h.length_bytes
    have := h.valid.head_le
    omega
  rw [OwnedBuffer.take_eq h.valid hadd]
  by_cases hn : amount ≤ a.bytes.length
  · rw [if_pos (hiff.mpr hn), dif_pos hn]
    exact ⟨rfl, h.drop hn⟩
  · rw [if_neg (mt hiff.mp hn), dif_neg hn]
    exact ⟨rfl, h⟩

theorem takeU32 : Agrees ((PrefixBuffer.takeU32 checked b).map Output.ofWord id)
      (if hn : 4 ≤ a.bytes.length then
        (.word (PrefixBuffer.u32FromLeBytes (a.bytes.take 4)), a.drop 4 hn)
      else (.panicked, a)) := by
  rw [PrefixBuffer.takeU32, h.len_eq, ← h.bytes]
  by_cases hn : 4 ≤ a.bytes.length
  · have hfits : b.head + 4 ≤ b.tail := by
      have := h.length_bytes
      omega
    have hlt : b.head + 4 < usizeCount :=
      Nat.lt_of_le_of_lt (Nat.le_trans hfits h.valid.tail_le) b.data.length_lt
    rw [if_pos hn, dif_pos hn, OwnedBuffer.take_eq h.valid (.inr hlt), if_pos hfits]
    exact ⟨rfl, h.drop hn⟩
  · rw [if_neg hn, dif_neg hn]
    exact ⟨rfl, h⟩

theorem set (hvalue : value.length ≤ b.data.length) :
    Agrees ((PrefixBuffer.set checked value b).map Output.ofUnit id)
      (if hn : value.length ≤ a.capacity then (.done, a.replace value hn)
      else (.panicked, a)) := by
  have hfits : value.length ≤ a.capacity := h.capacity.symm ▸ hvalue
  have hroom : value.length ≤ (a.replace [] (Nat.zero_le _)).available := hfits
  have hpush := h.reset.prefixWith value
  rw [AbstractBuffer.push, dif_pos hroom] at hpush
  rw [dif_pos hfits]
  refine ⟨hpush.1, hpush.2.valid, hpush.2.capacity, ?_, hpush.2.available⟩
  exact (List.append_nil value).symm.trans hpush.2.bytes

theorem keep (hadd : checked = true ∨ b.head + size < usizeCount) (hfits) :
    Agrees ((b.keep checked size).map Output.ofUnit id) (if size ≤ a.bytes.length then
        (.done, { a with bytes := a.bytes.take size, fits := hfits })
      else (.panicked, a)) := by
  have hlength := h.length_bytes
  have hhead := h.valid.head_le
  have htail := h.valid.tail_le
  rw [OwnedBuffer.keep_eq h.valid hadd]
  by_cases hn : size ≤ a.bytes.length
  · rw [if_pos (by omega), if_pos hn]
    refine ⟨rfl, ⟨?_, ?_⟩, h.capacity, ?_, h.available⟩
    · show b.head ≤ b.head + size
      omega
    · show b.head + size ≤ b.data.length
      omega
    · show a.bytes.take size = (b.data.bytes.take (b.head + size)).drop b.head
      rw [h.bytes]
      show ((b.data.bytes.take b.tail).drop b.head).take size = _
      rw [List.take_drop, List.take_take, Nat.min_eq_left (by omega)]
  · rw [if_neg (by omega), if_neg hn]
    exact ⟨rfl, h⟩

theorem callTrait (hop : b.accepts checked op = true)
    (hkeep : ∀ size, op ≠ .keep size) :
    Option.Rel Agrees (Buffer.callTrait checked b op) (a.call op) := by
  cases op with
  | reserve value => exact .some (h.push value)
  | prefixWith value => exact .some (h.prefixWith value)
  | take amount =>
    simp only [OwnedBuffer.accepts, Bool.or_eq_true, decide_eq_true_eq] at hop
    exact .some (h.take hop)
  | takeU32 => exact .some h.takeU32
  | keep size => exact absurd rfl (hkeep size)
  | set value => exact .some (h.set (of_decide_eq_true hop))
  | reset => exact .some ⟨rfl, h.reset⟩

end

end Holds

/-! ## The three kinds -/

namespace AnyBuffer

/-- The buffer, without its kind. -/
def rep : AnyBuffer → OwnedBuffer
  | .view b => b.toOwnedBuffer
  | .static _ b => b.toOwnedBuffer
  | .owned b => b

/-- Whether the buffer has the operation `keep`. -/
def keeps : AnyBuffer → Bool
  | .view _ => false
  | _ => true

end AnyBuffer

/-- `a` is what the buffer `b` holds. -/
structure Represents (b : AnyBuffer) (a : AbstractBuffer) : Prop extends Holds b.rep a where
  keeps : a.keeps = b.keeps

/-- Both do the same, and hold the same then. -/
def Represents.Agrees (r : Output × AnyBuffer) (r' : Output × AbstractBuffer) : Prop :=
  r.1 = r'.1 ∧ Represents r.2 r'.2

theorem AbstractBuffer.keeps_call {a : AbstractBuffer} (h : a.call op = some r) :
    r.2.keeps = a.keeps := by
  cases op with
  | reserve value | prefixWith value =>
    cases h
    unfold push
    split
    · rfl
    · rfl
  | take | takeU32 | set =>
    cases h
    split
    · rfl
    · rfl
  | keep size =>
    obtain ⟨-, rfl⟩ := Option.ite_some_none_eq_some.mp h
    split
    · rfl
    · rfl
  | reset =>
    cases h
    rfl

section

variable {a : AbstractBuffer} {checked : Bool} {op : Op}

/-- A kind of buffers that does what `OwnedBuffer` does. -/
theorem represents_trait [PrefixBuffer β]
    (himp : Implements β fun b => (wrap b).rep) (hwrap : ∀ b b', (wrap b).keeps = (wrap b').keeps)
    (h : Represents (wrap b) a) (hop : (wrap b).rep.accepts checked op = true)
    (hkeep : ∀ size, op ≠ .keep size) :
    Option.Rel Represents.Agrees ((callTrait checked b op).map (Prod.map id wrap)) (a.call op) := by
  have hcall := h.toHolds.callTrait hop hkeep
  rw [← himp.callTrait checked op h.valid] at hcall
  generalize hr : callTrait checked b op = r at hcall ⊢
  generalize hr' : a.call op = r' at hcall ⊢
  cases r with
  | none =>
    cases hcall
    exact .none
  | some x =>
    cases hcall with
    | some hxy =>
      have hsame := AbstractBuffer.keeps_call hr'
      exact .some ⟨hxy.1, hxy.2, hsame.trans (h.keeps.trans (hwrap b x.2))⟩

theorem represents_keep (h : Represents b a)
    (hop : b.rep.accepts checked (.keep size) = true) (hkeeps : b.keeps = true)
    (hout : r.1 = Output.ofUnit (b.rep.keep checked size.toNat).1)
    (hrep : r.2.rep = (b.rep.keep checked size.toNat).2) (hkeeps' : r.2.keeps = true) :
    Option.Rel Represents.Agrees (some r) (a.call (.keep size)) := by
  simp only [OwnedBuffer.accepts, Bool.or_eq_true, decide_eq_true_eq] at hop
  have hkept := h.toHolds.keep hop (by
    have := a.fits
    rw [List.length_take]
    omega)
  have hcall : a.call (.keep size) = _ := if_pos (h.keeps.trans hkeeps)
  have hsame := AbstractBuffer.keeps_call hcall
  rw [hcall]
  refine .some ⟨hout.trans hkept.1, hrep.symm ▸ hkept.2, ?_⟩
  exact hsame.trans (h.keeps.trans (hkeeps.trans hkeeps'.symm))

theorem StaticBuffer.keep_toOwnedBuffer (b : StaticBuffer size) (checked : Bool) (amount : Nat) :
    (b.keep checked amount).map id StaticBuffer.toOwnedBuffer =
      b.toOwnedBuffer.keep checked amount := by
  unfold StaticBuffer.keep OwnedBuffer.keep
  cases advance checked b.head amount b.tail <;> rfl

theorem AnyBuffer.call_static (hkeep : ∀ amount, op ≠ .keep amount) :
    (AnyBuffer.static size b).call checked op =
      (callTrait checked b op).map (Prod.map id (.static size)) := by
  cases op <;> first | rfl | exact absurd rfl (hkeep _)

theorem AnyBuffer.call_owned (hkeep : ∀ amount, op ≠ .keep amount) :
    (AnyBuffer.owned b).call checked op = (callTrait checked b op).map (Prod.map id .owned) := by
  cases op <;> first | rfl | exact absurd rfl (hkeep _)

/-- **One operation** of any of the three buffers. -/
theorem Represents.call (h : Represents b a) (hop : b.rep.accepts checked op = true) :
    Option.Rel Represents.Agrees (b.call checked op) (a.call op) := by
  by_cases hkeep : ∃ size, op = .keep size
  · obtain ⟨size, rfl⟩ := hkeep
    cases b with
    | view b =>
      have hcall : a.call (.keep size) = none := if_neg (by rw [h.keeps]; exact nofun)
      rw [hcall]
      exact .none
    | static n b =>
      have hsame := b.keep_toOwnedBuffer checked size.toNat
      have hout := congrArg (fun r : Option Unit × OwnedBuffer => Output.ofUnit r.1) hsame
      exact represents_keep h hop rfl hout (congrArg Prod.snd hsame) rfl
    | owned b => exact represents_keep h hop rfl rfl rfl rfl
  · have hkeep (size : UInt64) : op ≠ .keep size := fun heq => hkeep ⟨size, heq⟩
    cases b with
    | view b => exact represents_trait BufferView.implements (fun _ _ => rfl) h hop hkeep
    | static n b =>
      rw [AnyBuffer.call_static hkeep]
      exact represents_trait StaticBuffer.implements (fun _ _ => rfl) h hop hkeep
    | owned b =>
      rw [AnyBuffer.call_owned hkeep]
      exact represents_trait OwnedBuffer.implements (fun _ _ => rfl) h hop hkeep

end

end Kimojio.Buffer
