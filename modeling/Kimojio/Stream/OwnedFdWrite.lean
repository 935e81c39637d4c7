import Kimojio.Ring.Completion
import Kimojio.Slices

/-!
# Kimojio.Stream.OwnedFdWrite

`write` and `writev` of an `OwnedFdStream`, and the `writev` that the trait
`AsyncStreamWrite` has by default, over a kernel that transfers any part of
what it is asked to.

A request has the length of its buffer, or the number of its slices, in 32
bits. So a request for a buffer of 4 GiB asks for nothing, and the loop takes
the answer for a broken pipe: `write` is right for the buffers that are shorter
(`write_delivers_iff`). A `writev` of slices that are all empty asks for
nothing as well, where the default `writev` makes no request at all.
-/

namespace Kimojio.FdStream

open Kimojio.Ring (Errno)

/-! ## The kernel -/

def epipe : Errno := ⟨32⟩

/-- What is written to a descriptor. `kernel i n` is the answer to the request
`i`, for `n` bytes; a deadline that has passed answers with an error, too. -/
structure Outgoing where
  kernel : Nat → Nat → Except Errno Nat
  calls : Nat
  sent : List UInt8
  failed : Bool

/-- A request transfers a byte at least, or fails; a request for nothing transfers
nothing. -/
structure Transfers (kernel : Nat → Nat → Except Errno Nat) : Prop where
  zero : ∀ i, kernel i 0 = .ok 0
  short : ∀ i n m, 0 < n → kernel i n = .ok m → 0 < m ∧ m ≤ n

namespace Outgoing

def new (kernel : Nat → Nat → Except Errno Nat) : Outgoing := ⟨kernel, 0, [], false⟩

/-- A request for these bytes. -/
def transfer (bytes : List UInt8) (o : Outgoing) : Outgoing × Except Errno Nat :=
  match o.kernel o.calls bytes.length with
  | .ok amount =>
    ({ o with calls := o.calls + 1, sent := o.sent ++ bytes.take amount }, .ok amount)
  | .error e => ({ o with calls := o.calls + 1, failed := true }, .error e)

/-- `write_with_deadline`: the length of the request is `buf.len() as u32`. -/
def write (buf : List UInt8) (o : Outgoing) : Outgoing × Except Errno Nat :=
  o.transfer (buf.take (buf.length % UInt32.size))

/-- `writev_with_deadline`: the number of slices is `buffers.len() as u32`. -/
def writev (buffers : List (List UInt8)) (o : Outgoing) : Outgoing × Except Errno Nat :=
  o.transfer (buffers.take (buffers.length % UInt32.size)).flatten

end Outgoing

/-! ## The functions -/

/-- The loop of `write_impl`. -/
def writeLoop (o : Outgoing) (buffer : List UInt8) : Outgoing × Except Errno Unit :=
  if buffer = [] then (o, .ok ())
  else
    match o.write buffer with
    | (o, .error e) => (o, .error e)
    | (o, .ok amount) =>
      if amount = 0 then (o, .error epipe) else writeLoop o (buffer.drop amount)
termination_by buffer.length
decreasing_by
  have hpos := List.length_pos_iff.mpr ‹¬buffer = []›
  rw [List.length_drop]
  omega

def writeImpl (fd : Bool) (buffer : List UInt8) (o : Outgoing) : Outgoing × Except Errno Unit :=
  if fd then writeLoop o buffer else (o, .error epipe)

/-- The loop of `writev_impl`. -/
def writevLoop (o : Outgoing) (buffers : List (List UInt8)) : Outgoing × Except Errno Unit :=
  if buffers = [] then (o, .ok ())
  else
    match o.writev buffers with
    | (o, .error e) => (o, .error e)
    | (o, .ok result) =>
      if result = 0 then (o, .error epipe)
      else writevLoop o (advanceSlices buffers result)
termination_by buffers.flatten.length + buffers.length
decreasing_by exact size_advanceSlices_lt ‹_› (Nat.pos_of_ne_zero ‹_›)

def writevImpl (fd : Bool) (buffers : List (List UInt8)) (o : Outgoing) :
    Outgoing × Except Errno Unit :=
  if fd then writevLoop o buffers else (o, .error epipe)

/-- `AsyncStreamWrite::writev`: the slices are written in turn. -/
def defaultWritev (fd : Bool) : List (List UInt8) → Outgoing → Outgoing × Except Errno Unit
  | [], o => (o, .ok ())
  | buffer :: buffers, o =>
    match writeImpl fd buffer o with
    | (o, .error e) => (o, .error e)
    | (o, .ok ()) => defaultWritev fd buffers o

/-! ## What a request does -/

/-- The bytes are sent once and in order, and the call returns `Ok`, unless a request
fails. -/
structure Sends (o : Outgoing) (bytes : List UInt8) (r : Outgoing × Except Errno Unit) :
    Prop where
  kernel : r.1.kernel = o.kernel
  failed : o.failed = true → r.1.failed = true
  sent : r.1.failed = false → r.2 = .ok () ∧ r.1.sent = o.sent ++ bytes

/-- **Delivery**, whatever the kernel transfers at a time. -/
def Delivers (call : Outgoing → Outgoing × Except Errno Unit) (bytes : List UInt8) : Prop :=
  ∀ o, Transfers o.kernel → (call o).1.failed = false →
    (call o).2 = .ok () ∧ (call o).1.sent = o.sent ++ bytes

variable {o o' : Outgoing} {bytes buffer : List UInt8}

theorem transfer_ok (h : o.transfer bytes = (o', .ok amount)) :
    o.kernel o.calls bytes.length = .ok amount ∧
      o' = { o with calls := o.calls + 1, sent := o.sent ++ bytes.take amount } := by
  unfold Outgoing.transfer at h
  split at h
  · next hk =>
    cases h
    exact ⟨hk, rfl⟩
  · cases h

theorem transfer_error (h : o.transfer bytes = (o', .error e)) :
    o' = { o with calls := o.calls + 1, failed := true } := by
  unfold Outgoing.transfer at h
  split at h
  · cases h
  · cases h
    rfl

/-- The amount is a part of what was asked for, and is not 0 unless nothing was. -/
theorem Transfers.bounds (hkernel : Transfers o.kernel)
    (h : o.kernel o.calls bytes.length = .ok amount) :
    amount ≤ bytes.length ∧ (amount = 0 ↔ bytes = []) := by
  cases bytes with
  | nil =>
    rw [List.length_nil, hkernel.zero] at h
    cases h
    simp
  | cons b bs =>
    obtain ⟨hpos, hle⟩ := hkernel.short _ _ _ (Nat.zero_lt_succ _) h
    refine ⟨hle, ?_⟩
    simp
    omega

theorem Sends.refl (o : Outgoing) : Sends o [] (o, .ok ()) where
  kernel := rfl
  failed := id
  sent := fun _ => ⟨rfl, (List.append_nil _).symm⟩

theorem Sends.error (h : o.transfer bytes = (o', .error e)) (all : List UInt8) :
    Sends o all (o', .error e') := by
  cases transfer_error h
  exact ⟨rfl, fun _ => rfl, fun hfailed => absurd hfailed (by simp)⟩

theorem Sends.next (h : o.transfer bytes = (o', .ok amount))
    (hbytes : bytes.take amount = all.take amount) (hrest : Sends o' (all.drop amount) r) :
    Sends o all r := by
  obtain ⟨-, rfl⟩ := transfer_ok h
  refine ⟨hrest.kernel, hrest.failed, fun hfailed => ?_⟩
  obtain ⟨hok, hsent⟩ := hrest.sent hfailed
  refine ⟨hok, ?_⟩
  rw [hsent, hbytes, List.append_assoc, List.take_append_drop]

theorem Sends.append (h : Sends o bytes (o', .ok ())) (hmore : Sends o' more r) :
    Sends o (bytes ++ more) r where
  kernel := hmore.kernel.trans h.kernel
  failed := fun hfailed => hmore.failed (h.failed hfailed)
  sent := by
    intro hfailed
    obtain ⟨hok, hsent⟩ := hmore.sent hfailed
    have hbefore : o'.failed = false := by
      cases hf : o'.failed with
      | false => rfl
      | true => rw [hmore.failed hf] at hfailed; cases hfailed
    refine ⟨hok, ?_⟩
    rw [hsent, (h.sent hbefore).2, List.append_assoc]

/-! ## A kernel without errors -/

def Steady (kernel : Nat → Nat → Except Errno Nat) : Prop :=
  ∀ i n e, kernel i n ≠ .error e

theorem Steady.transfer_ne_error (h : Steady o.kernel) : o.transfer bytes ≠ (o', .error e) := by
  unfold Outgoing.transfer
  split
  · simp
  · next hk => exact absurd hk (h _ _ _)

theorem writeLoop_steady (o : Outgoing) (buffer : List UInt8) (h : Steady o.kernel) :
    (writeLoop o buffer).1.kernel = o.kernel ∧ (writeLoop o buffer).1.failed = o.failed := by
  fun_induction writeLoop o buffer with
  | case1 o => exact ⟨rfl, rfl⟩
  | case2 o buffer _ o' e hwrite => exact absurd hwrite h.transfer_ne_error
  | case3 o buffer _ o' hwrite =>
    obtain ⟨-, rfl⟩ := transfer_ok hwrite
    exact ⟨rfl, rfl⟩
  | case4 o buffer _ o' amount hwrite _ ih =>
    obtain ⟨-, rfl⟩ := transfer_ok hwrite
    exact ih h

/-! ## `write` -/

/-- The loop sends a buffer whose length is not cut by the request. -/
theorem writeLoop_sends (o : Outgoing) (buffer : List UInt8) (hkernel : Transfers o.kernel)
    (hlength : buffer.length < UInt32.size) : Sends o buffer (writeLoop o buffer) := by
  -- the loop's own induction: a request for all that is left, then the loop on what remains
  fun_induction writeLoop o buffer with
  | case1 o => exact .refl o
  | case2 o buffer hbuffer o' e h => exact .error h buffer
  | case3 o buffer hbuffer o' h =>
    rw [Outgoing.write, Nat.mod_eq_of_lt hlength, List.take_length] at h
    exact absurd ((hkernel.bounds (transfer_ok h).1).2.mp rfl) hbuffer
  | case4 o buffer hbuffer o' amount h hamount ih =>
    rw [Outgoing.write, Nat.mod_eq_of_lt hlength, List.take_length] at h
    have hrest : (buffer.drop amount).length < UInt32.size :=
      Nat.lt_of_le_of_lt (by rw [List.length_drop]; exact Nat.sub_le _ _) hlength
    exact .next h rfl (ih ((transfer_ok h).2 ▸ hkernel) hrest)

/-- A kernel that takes all it is asked to. -/
def greedy (_ n : Nat) : Except Errno Nat := .ok n

theorem transfers_greedy : Transfers greedy where
  zero := fun _ => rfl
  short := by
    intro i n m hn hm
    cases hm
    exact ⟨hn, Nat.le_refl n⟩

theorem steady_greedy : Steady greedy := by
  intro i n e he
  cases he

theorem transfer_greedy (h : o.kernel = greedy) (bytes : List UInt8) : o.transfer bytes =
      ({ o with calls := o.calls + 1, sent := o.sent ++ bytes }, .ok bytes.length) := by
  simp [Outgoing.transfer, h, greedy]

/-- Once the rest of a buffer is 4 GiB long, the next request is for nothing. -/
theorem writeLoop_of_mod_eq_zero (h : o.kernel = greedy) (hbuffer : buffer ≠ [])
    (hmod : buffer.length % UInt32.size = 0) :
    writeLoop o buffer = ({ o with calls := o.calls + 1 }, .error epipe) := by
  have hwrite : o.write buffer = ({ o with calls := o.calls + 1 }, .ok 0) := by
    rw [Outgoing.write, hmod, transfer_greedy h]
    simp
  rw [writeLoop, if_neg hbuffer, hwrite]
  rfl

/-- A kernel that takes all it is asked to brings every longer buffer there. -/
theorem writeLoop_greedy (h : o.kernel = greedy) (hlength : UInt32.size ≤ buffer.length) :
    (writeLoop o buffer).2 = .error epipe := by
  have hbuffer : buffer ≠ [] := by
    rintro rfl
    exact absurd hlength (by decide)
  by_cases hmod : buffer.length % UInt32.size = 0
  · rw [writeLoop_of_mod_eq_zero h hbuffer hmod]
  · -- the first request takes what the length has modulo 2^32, and leaves a multiple
    have hle := Nat.mod_le buffer.length UInt32.size
    have hlt := Nat.mod_lt buffer.length (show UInt32.size > 0 by decide)
    have hrest : buffer.drop (buffer.length % UInt32.size) ≠ [] := by
      rw [Ne, List.drop_eq_nil_iff]
      omega
    have hdrop : (buffer.drop (buffer.length % UInt32.size)).length % UInt32.size = 0 := by
      rw [List.length_drop]
      exact Nat.sub_mod_eq_zero_of_mod_eq (Nat.mod_mod _ _).symm
    rw [writeLoop, if_neg hbuffer, Outgoing.write, transfer_greedy h]
    simp only [List.length_take, Nat.min_eq_left hle, if_neg hmod]
    rw [writeLoop_of_mod_eq_zero (by exact h) hrest hdrop]

/-- **`write`** sends the buffer, once and in order, however the kernel cuts it, if and only
if its length has 32 bits. -/
theorem write_delivers_iff (buffer : List UInt8) :
    Delivers (writeImpl true buffer) buffer ↔ buffer.length < UInt32.size := by
  constructor
  · intro h
    refine Nat.lt_of_not_le fun hle => ?_
    have hfailed := (writeLoop_steady (.new greedy) buffer steady_greedy).2
    have hok := (h (.new greedy) transfers_greedy hfailed).1
    rw [writeImpl, if_pos rfl, writeLoop_greedy rfl hle] at hok
    cases hok
  · intro hlength o hkernel hfailed
    exact (writeLoop_sends o buffer hkernel hlength).sent hfailed

/-- A buffer of 4 GiB: nothing is written, no request fails, and the pipe is reported
broken. -/
theorem exists_write_epipe : ∃ buffer : List UInt8, buffer.length ≤ 9223372036854775807 ∧
    ∃ kernel, Transfers kernel ∧ (writeImpl true buffer (.new kernel)).1.sent = [] ∧
      (writeImpl true buffer (.new kernel)).1.failed = false ∧
      (writeImpl true buffer (.new kernel)).2 = .error epipe := by
  have hlength : (List.replicate UInt32.size (0 : UInt8)).length = UInt32.size :=
    List.length_replicate
  have hbuffer : List.replicate UInt32.size (0 : UInt8) ≠ [] := by
    decide
  have hloop := writeLoop_of_mod_eq_zero (o := .new greedy) rfl hbuffer
    (by rw [hlength, Nat.mod_self])
  refine ⟨List.replicate UInt32.size 0, ?_, greedy, transfers_greedy, ?_⟩
  · rw [hlength]
    decide
  · rw [writeImpl, if_pos rfl, hloop]
    exact ⟨rfl, rfl, rfl⟩

/-! ## `writev` -/

/-- The request for these slices asks for a byte. -/
def Asks (buffers : List (List UInt8)) : Prop :=
  (buffers.take (buffers.length % UInt32.size)).flatten ≠ []

/-- Every request asks for a byte, wherever the requests before it ended. -/
def Fits (buffers : List (List UInt8)) : Prop :=
  buffers = [] ∨ (Asks buffers ∧
    ∀ n, 0 < n → n < buffers.flatten.length → Asks (advanceSlices buffers n))

variable {buffers : List (List UInt8)}

/-- What a request takes of the slices it names, it takes of all of them. -/
theorem take_flatten_take (h : n ≤ (buffers.take k).flatten.length) :
    (buffers.take k).flatten.take n = buffers.flatten.take n := by
  conv => rhs; rw [← List.take_append_drop k buffers, List.flatten_append]
  rw [List.take_append_of_le_length h]

/-- A list that fits still does after a request. -/
theorem Fits.advance (h : Fits buffers) (hn : 0 < n) : Fits (advanceSlices buffers n) := by
  obtain rfl | ⟨-, hrest⟩ := h
  · exact .inl rfl
  · by_cases hlt : n < buffers.flatten.length
    · refine .inr ⟨hrest n hn hlt, fun k hk hklt => ?_⟩
      rw [flatten_advanceSlices, List.length_drop] at hklt
      rw [advanceSlices_add]
      exact hrest (n + k) (by omega) (by omega)
    · exact .inl (advanceSlices_of_length_le (Nat.le_of_not_lt hlt))

/-- A list fits when its request asks for a byte and what that byte leaves fits. -/
theorem Fits.of_advance (hasks : Asks buffers) (h : Fits (advanceSlices buffers 1)) :
    Fits buffers := by
  refine .inr ⟨hasks, fun n hn hlt => ?_⟩
  have hflat := flatten_advanceSlices buffers 1
  obtain hnil | ⟨hfirst, hrest⟩ := h
  · have hlength := congrArg List.length hflat
    rw [hnil, List.flatten_nil, List.length_nil, List.length_drop] at hlength
    omega
  · by_cases hone : n = 1
    · exact hone ▸ hfirst
    · have hasks := hrest (n - 1) (by omega) (by rw [hflat, List.length_drop]; omega)
      rwa [advanceSlices_add, Nat.add_sub_cancel' (by omega)] at hasks

/-- With fewer than 2^32 slices, a list fits unless it consists of empty slices. -/
theorem fits_iff_of_length_lt (h : buffers.length < UInt32.size) :
    Fits buffers ↔ buffers = [] ∨ buffers.flatten ≠ [] := by
  have hasks : ∀ n, Asks (advanceSlices buffers n) ↔ buffers.flatten.drop n ≠ [] := by
    intro n
    have hlength := Nat.lt_of_le_of_lt (length_advanceSlices_le buffers n) h
    rw [Asks, Nat.mod_eq_of_lt hlength, List.take_length, flatten_advanceSlices]
  have hself : Asks buffers ↔ buffers.flatten ≠ [] := by
    rw [Asks, Nat.mod_eq_of_lt h, List.take_length]
  refine or_congr Iff.rfl ⟨fun hfits => hself.mp hfits.1, fun hne => ⟨hself.mpr hne, ?_⟩⟩
  intro n _ hlt
  rw [hasks, Ne, List.drop_eq_nil_iff]
  omega

/-- The loop sends the slices, if they fit. -/
theorem writevLoop_sends (o : Outgoing) (buffers : List (List UInt8))
    (hkernel : Transfers o.kernel) (hfits : Fits buffers) :
    Sends o buffers.flatten (writevLoop o buffers) := by
  fun_induction writevLoop o buffers with
  | case1 o => exact .refl o
  | case2 o buffers hbuffers o' e h => exact .error h _
  | case3 o buffers hbuffers o' h =>
    exact absurd ((hkernel.bounds (transfer_ok h).1).2.mp rfl) (hfits.resolve_left hbuffers).1
  | case4 o buffers hbuffers o' result h hresult ih =>
    have hle := (hkernel.bounds (transfer_ok h).1).1
    refine .next h (take_flatten_take hle) ?_
    rw [← flatten_advanceSlices]
    exact ih ((transfer_ok h).2 ▸ hkernel) (hfits.advance (Nat.pos_of_ne_zero hresult))

/-- A kernel that takes a byte at a time. -/
def single (_ n : Nat) : Except Errno Nat := .ok (min 1 n)

theorem transfers_single : Transfers single where
  zero := fun _ => rfl
  short := by
    intro i n m hn hm
    cases hm
    omega

theorem steady_single : Steady single := by
  intro i n e he
  cases he

theorem writevLoop_steady (o : Outgoing) (buffers : List (List UInt8)) (h : Steady o.kernel) :
    (writevLoop o buffers).1.failed = o.failed := by
  fun_induction writevLoop o buffers with
  | case1 o => rfl
  | case2 o buffers _ o' e hwritev => exact absurd hwritev h.transfer_ne_error
  | case3 o buffers _ o' hwritev =>
    obtain ⟨-, rfl⟩ := transfer_ok hwritev
    rfl
  | case4 o buffers _ o' result hwritev _ ih =>
    obtain ⟨-, rfl⟩ := transfer_ok hwritev
    exact ih h

/-- If a byte is taken at a time, the loop returns `Ok` for lists that fit only. -/
theorem fits_of_writevLoop (o : Outgoing) (buffers : List (List UInt8)) (h : o.kernel = single)
    (hok : (writevLoop o buffers).2 = .ok ()) : Fits buffers := by
  fun_induction writevLoop o buffers with
  | case1 o => exact .inl rfl
  | case2 | case3 => cases hok
  | case4 o buffers _ o' result hwritev hresult ih =>
    obtain ⟨hk, rfl⟩ := transfer_ok hwritev
    rw [h] at hk
    have hmin : min 1 (buffers.take (buffers.length % UInt32.size)).flatten.length = result :=
      Except.ok.inj hk
    have hasks : Asks buffers := by
      rw [Asks, Ne, ← List.length_eq_zero_iff]
      omega
    have hone : result = 1 := by omega
    subst hone
    exact .of_advance hasks (ih h hok)

theorem Delivers.fits (h : Delivers (writevImpl true buffers) bytes) : Fits buffers :=
  have hfailed := writevLoop_steady (.new single) buffers steady_single
  fits_of_writevLoop (.new single) buffers rfl (h (.new single) transfers_single hfailed).1

/-- **`writev`** sends the slices, however the kernel cuts them, if and only if they fit. -/
theorem writev_delivers_iff (buffers : List (List UInt8)) :
    Delivers (writevImpl true buffers) buffers.flatten ↔ Fits buffers := by
  refine ⟨Delivers.fits, fun hfits o hkernel hfailed => ?_⟩
  exact (writevLoop_sends o buffers hkernel hfits).sent hfailed

/-! ## The default `writev` -/

theorem defaultWritev_sends (o : Outgoing) (buffers : List (List UInt8))
    (hkernel : Transfers o.kernel) (hlength : ∀ buffer ∈ buffers, buffer.length < UInt32.size) :
    Sends o buffers.flatten (defaultWritev true buffers o) := by
  induction buffers generalizing o with
  | nil => exact .refl o
  | cons buffer buffers ih =>
    have hfirst := writeLoop_sends o buffer hkernel (hlength _ List.mem_cons_self)
    unfold defaultWritev
    split
    · next o' e hwrite =>
      rw [writeImpl, if_pos rfl] at hwrite
      rw [hwrite] at hfirst
      -- the slice is sent unless a request fails, and the call ends there
      refine ⟨hfirst.kernel, hfirst.failed, fun hfailed => ?_⟩
      cases (hfirst.sent hfailed).1
    · next o' hwrite =>
      rw [writeImpl, if_pos rfl] at hwrite
      rw [hwrite] at hfirst
      exact hfirst.append (ih o' (hfirst.kernel ▸ hkernel)
        fun b hb => hlength b (List.mem_cons_of_mem _ hb))

theorem defaultWritev_steady (o : Outgoing) (buffers : List (List UInt8))
    (h : Steady o.kernel) : (defaultWritev true buffers o).1.failed = o.failed := by
  induction buffers generalizing o with
  | nil => rfl
  | cons buffer buffers ih =>
    obtain ⟨hkernel, hfailed⟩ := writeLoop_steady o buffer h
    unfold defaultWritev
    rw [writeImpl, if_pos rfl]
    split
    · next o' e hwrite => rw [← hfailed, hwrite]
    · next o' hwrite =>
      rw [hwrite] at hkernel hfailed
      rw [ih o' (hkernel ▸ h)]
      exact hfailed

/-- If the kernel takes all it is asked to, the call returns `Ok` for short slices only. -/
theorem length_lt_of_defaultWritev (o : Outgoing) (buffers : List (List UInt8))
    (h : o.kernel = greedy) (hok : (defaultWritev true buffers o).2 = .ok ()) :
    ∀ buffer ∈ buffers, buffer.length < UInt32.size := by
  induction buffers generalizing o with
  | nil => exact fun _ hb => absurd hb List.not_mem_nil
  | cons buffer buffers ih =>
    have hkernel := (writeLoop_steady o buffer (h ▸ steady_greedy)).1
    unfold defaultWritev at hok
    rw [writeImpl, if_pos rfl] at hok
    split at hok
    · cases hok
    · next o' hwrite =>
      rw [hwrite] at hkernel
      have hfirst : buffer.length < UInt32.size := by
        refine Nat.lt_of_not_le fun hle => ?_
        have herror := writeLoop_greedy h hle
        rw [hwrite] at herror
        cases herror
      rw [List.forall_mem_cons]
      exact ⟨hfirst, ih o' (hkernel.trans h) hok⟩

theorem Delivers.length_lt (h : Delivers (defaultWritev true buffers) bytes) :
    ∀ buffer ∈ buffers, buffer.length < UInt32.size :=
  have hfailed := defaultWritev_steady (.new greedy) buffers steady_greedy
  length_lt_of_defaultWritev (.new greedy) buffers rfl (h (.new greedy) transfers_greedy hfailed).1

/-- **The two `writev`s** send the same bytes, and return `Ok`, if and only if the list fits
and none of its slices is longer than a request can be. -/
theorem writev_agrees_iff (buffers : List (List UInt8)) :
    (∃ bytes, Delivers (writevImpl true buffers) bytes ∧
      Delivers (defaultWritev true buffers) bytes) ↔
      Fits buffers ∧ ∀ buffer ∈ buffers, buffer.length < UInt32.size := by
  constructor
  · rintro ⟨bytes, hwritev, hdefault⟩
    exact ⟨hwritev.fits, hdefault.length_lt⟩
  · rintro ⟨hfits, hlength⟩
    exact ⟨buffers.flatten, (writev_delivers_iff buffers).mpr hfits,
      fun o hkernel => (defaultWritev_sends o buffers hkernel hlength).sent⟩

/-- One empty slice: the request for nothing is taken for a broken pipe. -/
theorem exists_writev_disagrees : ∃ buffers kernel, Transfers kernel ∧
    (writevImpl true buffers (.new kernel)).1.failed = false ∧
    (writevImpl true buffers (.new kernel)).2 = .error epipe ∧
    (defaultWritev true buffers (.new kernel)).2 = .ok () := by
  have hwritev : writevImpl true [[]] (.new greedy) = (⟨greedy, 1, [], false⟩, .error epipe) := by
    rw [writevImpl, if_pos rfl, writevLoop]
    rfl
  have hdefault : defaultWritev true [[]] (.new greedy) = (.new greedy, .ok ()) := by
    rw [defaultWritev, writeImpl, if_pos rfl, writeLoop]
    rfl
  refine ⟨[[]], greedy, transfers_greedy, ?_⟩
  rw [hwritev, hdefault]
  exact ⟨rfl, rfl, rfl⟩

end Kimojio.FdStream
