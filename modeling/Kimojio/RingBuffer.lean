/-!
# Kimojio.RingBuffer

A buffer of fixed length that is used as a ring: `amount` elements, from
`head` on, and after the end of the buffer on from its start.

Elements go in and out in contiguous pieces, which end at the end of the
buffer at the latest. What the ring holds is a queue all the same: a piece is
taken from its front (`contents_take`) and put at its end (`contents_put`).
-/

namespace Kimojio.RingBuffer

variable {buffer : List α} {head amount : Nat}

/-- What the ring holds. -/
def contents (buffer : List α) (head amount : Nat) : List α :=
  (List.range amount).filterMap fun i => buffer[(head + i) % buffer.length]?

/-- The elements `start .. start + amount` of a buffer. -/
def slice (buffer : List α) (start amount : Nat) : List α := (buffer.drop start).take amount

/-- The buffer with a piece copied over its elements from `start` on. -/
def overwrite (buffer : List α) (start : Nat) (piece : List α) : List α :=
  buffer.take start ++ piece ++ buffer.drop (start + piece.length)

theorem length_overwrite (h : start + piece.length ≤ buffer.length) :
    (overwrite buffer start piece).length = buffer.length := by
  simp only [overwrite, List.length_append, List.length_take, List.length_drop]
  omega

theorem take_overwrite (h : start ≤ buffer.length) :
    (overwrite buffer start piece).take (start + piece.length) = buffer.take start ++ piece := by
  refine List.take_left' ?_
  rw [List.length_append, List.length_take, Nat.min_eq_left h]

theorem drop_overwrite (h : start ≤ buffer.length) (hk : start + piece.length ≤ k) :
    (overwrite buffer start piece).drop k = buffer.drop k := by
  have hfront : (buffer.take start ++ piece).length = start + piece.length := by
    rw [List.length_append, List.length_take, Nat.min_eq_left h]
  rw [overwrite, List.drop_append, List.drop_of_length_le (by omega), hfront, List.drop_drop,
    List.nil_append, Nat.add_sub_cancel' hk]

/-- The ring is a part of the buffer written twice. -/
theorem contents_eq (hhead : head < buffer.length) (hamount : amount ≤ buffer.length) :
    contents buffer head amount = ((buffer ++ buffer).drop head).take amount := by
  induction amount with
  | zero => rfl
  | succ amount ih =>
    have hget : buffer[(head + amount) % buffer.length]? = (buffer ++ buffer)[head + amount]? := by
      rw [List.getElem?_append]
      split
      · next hlt => rw [Nat.mod_eq_of_lt hlt]
      · next hge =>
        rw [Nat.mod_eq_sub_mod (Nat.not_lt.mp hge), Nat.mod_eq_of_lt (by omega)]
    have hstep : contents buffer head (amount + 1) =
        contents buffer head amount ++ buffer[(head + amount) % buffer.length]?.toList := by
      unfold contents
      rw [List.range_succ, List.filterMap_append, List.filterMap_cons, List.filterMap_nil]
      cases buffer[(head + amount) % buffer.length]? <;> rfl
    rw [hstep, ih (by omega), hget, List.take_add_one, List.getElem?_drop]

/-- A ring that does not reach the end of the buffer. -/
theorem contents_of_le (hhead : head < buffer.length) (hend : head + amount ≤ buffer.length) :
    contents buffer head amount = slice buffer head amount := by
  rw [contents_eq hhead (by omega), List.drop_append_of_le_length (by omega),
    List.take_append_of_le_length (by rw [List.length_drop]; omega), slice]

section
variable (hhead : head < buffer.length) (hamount : amount ≤ buffer.length)
include hhead hamount

/-- A ring that goes on at the start of the buffer. -/
theorem contents_of_ge (hend : buffer.length ≤ head + amount) :
    contents buffer head amount =
      buffer.drop head ++ buffer.take (head + amount - buffer.length) := by
  rw [contents_eq hhead hamount, List.drop_append_of_le_length (by omega), List.take_append,
    List.take_of_length_le (by rw [List.length_drop]; omega), List.length_drop]
  have hrest : amount - (buffer.length - head) = head + amount - buffer.length := by omega
  rw [hrest]

/-- **A piece is taken** from the front. -/
theorem contents_take (hk : k ≤ amount) (hend : head + k ≤ buffer.length) :
    contents buffer head amount =
      slice buffer head k ++ contents buffer ((head + k) % buffer.length) (amount - k) := by
  have hsplit : amount = k + (amount - k) := by omega
  have hfront : (((buffer ++ buffer).drop head).take k) = slice buffer head k := by
    rw [← contents_eq hhead (by omega), contents_of_le hhead hend]
  rw [contents_eq hhead hamount, contents_eq (Nat.mod_lt _ (by omega)) (by omega), hsplit,
    List.take_add, hfront, List.drop_drop, ← hsplit]
  congr 1
  rcases Nat.lt_or_eq_of_le hend with hlt | heq
  · rw [Nat.mod_eq_of_lt hlt]
  · -- the piece ends with the buffer
    rw [heq, Nat.mod_self, List.drop_left, List.drop_zero, List.take_append_of_le_length (by omega)]

/-- **A piece is put** at the end. -/
theorem contents_put (hroom : (head + amount) % buffer.length + piece.length ≤
      min ((head + amount) % buffer.length + (buffer.length - amount)) buffer.length) :
    contents (overwrite buffer ((head + amount) % buffer.length) piece) head
      (amount + piece.length) = contents buffer head amount ++ piece := by
  have hlength : (overwrite buffer ((head + amount) % buffer.length) piece).length =
      buffer.length := length_overwrite (by omega)
  rcases Nat.lt_or_ge (head + amount) buffer.length with hlt | hge
  · rw [Nat.mod_eq_of_lt hlt] at hroom hlength ⊢
    rw [contents_of_le (by omega) (by omega), contents_of_le hhead (by omega), slice, slice,
      List.take_drop, List.take_drop, ← Nat.add_assoc, take_overwrite (by omega),
      List.drop_append_of_le_length (by rw [List.length_take]; omega)]
  · have hmod : (head + amount) % buffer.length = head + amount - buffer.length := by
      rw [Nat.mod_eq_sub_mod hge, Nat.mod_eq_of_lt (by omega)]
    rw [hmod] at hroom hlength ⊢
    have hend : head + (amount + piece.length) - buffer.length =
        head + amount - buffer.length + piece.length := by omega
    rw [contents_of_ge (by omega) (by omega) (by omega), contents_of_ge hhead hamount hge, hlength,
      drop_overwrite (by omega) (by omega), hend, take_overwrite (by omega), List.append_assoc]

end

end Kimojio.RingBuffer
