import Kimojio.Buffer.Views

/-!
# Kimojio.Buffer.Bounds

The bounds that `take` and `keep` check in a build without overflow checks.
Both add their argument to `head` and compare the sum. A sum that wraps around
is less than `head`, so it always passes: `take` moves `head` back, over bytes
that were never initialized, and `keep` moves `tail` in front of `head`.

As long as no sum wraps around, the contents are bounded as they should be, in
every state that a buffer and its views reach (`guards_iff`).
-/

namespace Kimojio.Buffer

/-! ## One operation -/

/-- An operation that asks for `n` of the bytes panics if there are fewer, and changes
nothing then; it succeeds otherwise. The contents never grow. -/
def Guards (b : AnyBuffer) (op : Op) (n : Nat) : Prop :=
  ∀ r, b.call false op = some r → (b.len < n → r = (.panicked, b)) ∧ (n ≤ b.len → r.1 = .done) ∧
      r.2.rep.Valid ∧ r.2.len ≤ b.len

/-- A sum that does not wrap around is compared with the end of the contents. -/
def OwnedBuffer.sumFits (b : OwnedBuffer) : Op → Bool
  | .take amount => b.head + amount.toNat < usizeCount
  | .keep size => b.head + size.toNat < usizeCount
  | _ => true

theorem advance_of_wraps (hhead : head ≤ limit) (hn : n < usizeCount)
    (hwraps : usizeCount ≤ head + n) (hlimit : limit < usizeCount) :
    advance false head n limit = some (head + n - usizeCount) := by
  have hmod : (head + n) % usizeCount = head + n - usizeCount := by
    rw [Nat.mod_eq_sub_mod hwraps, Nat.mod_eq_of_lt (by omega)]
  unfold advance addUsize
  rw [if_neg (by omega), if_neg (by decide), hmod, Option.filter_some, if_pos]
  simp
  omega

namespace AnyBuffer

variable {b : AnyBuffer} {op : Op}

theorem len_eq : b.len = b.rep.tail - b.rep.head := by
  cases b <;> rfl

theorem tail_lt (hv : b.rep.Valid) : b.rep.tail < usizeCount :=
  Nat.lt_of_le_of_lt hv.tail_le b.rep.data.length_lt

/-- The buffer with its `head` elsewhere. -/
def setHead (head : Nat) : AnyBuffer → AnyBuffer
  | .view b => .view { b with head }
  | .static size b => .static size { b with head }
  | .owned b => .owned { b with head }

theorem rep_setHead (head : Nat) (b : AnyBuffer) : (b.setHead head).rep = { b.rep with head } := by
  cases b <;> rfl

theorem call_take (checked : Bool) (n : UInt64) (b : AnyBuffer) : b.call checked (.take n) =
      some ((advance checked b.rep.head n.toNat b.rep.tail).elim (.panicked, b)
        fun head => (.done, b.setHead head)) := by
  cases b with
  | view b =>
    simp only [call, callTrait, PrefixBuffer.take]
    show _ = some ((advance checked b.head n.toNat b.data.length).elim _ _)
    cases advance checked b.head n.toNat b.data.length <;> rfl
  | static size b | owned b =>
    simp only [call, callTrait, PrefixBuffer.take]
    show _ = some ((advance checked b.head n.toNat b.tail).elim _ _)
    cases advance checked b.head n.toNat b.tail <;> rfl

/-- `keep` moves the `tail`, in the buffers that have it. -/
theorem call_keep (h : b.call checked (.keep n) = some r) :
    ∃ setTail : Nat → AnyBuffer, (∀ tail, (setTail tail).rep = { b.rep with tail }) ∧
      r = (advance checked b.rep.head n.toNat b.rep.tail).elim (.panicked, b)
        fun tail => (.done, setTail tail) := by
  cases b with
  | view b => cases h
  | static size b =>
    refine ⟨fun tail => .static size { b with tail }, fun _ => rfl, ?_⟩
    cases h
    unfold StaticBuffer.keep
    show _ = (advance checked b.head n.toNat b.tail).elim _ _
    cases advance checked b.head n.toNat b.tail <;> rfl
  | owned b =>
    refine ⟨fun tail => .owned { b with tail }, fun _ => rfl, ?_⟩
    cases h
    unfold OwnedBuffer.keep
    show _ = (advance checked b.head n.toNat b.tail).elim _ _
    cases advance checked b.head n.toNat b.tail <;> rfl

/-- A bound that is compared with a sum that fits. -/
theorem guards_of_advance (move : Nat → AnyBuffer) (hv : b.rep.Valid)
    (hsum : b.rep.head + n < usizeCount)
    (hcall : ∀ r, b.call false op = some r →
      r = (advance false b.rep.head n b.rep.tail).elim (.panicked, b) fun x => (.done, move x))
    (hmove : ∀ x, b.rep.head ≤ x → x ≤ b.rep.tail → (move x).rep.Valid ∧ (move x).len ≤ b.len) :
    Guards b op n := by
  intro r hr
  have hhead := hv.head_le
  rw [hcall r hr, advance_eq (tail_lt hv) (.inr hsum), len_eq]
  by_cases hle : b.rep.head + n ≤ b.rep.tail
  · rw [if_pos hle, ← len_eq]
    refine ⟨fun hlt => ?_, fun _ => rfl, hmove _ (Nat.le_add_right _ _) hle⟩
    rw [len_eq] at hlt
    omega
  · rw [if_neg hle]
    exact ⟨fun _ => rfl, fun hle' => by omega, hv, Nat.le_of_eq len_eq⟩

theorem guards_take (hv : b.rep.Valid) (hsum : b.rep.head + n.toNat < usizeCount) :
    Guards b (.take n) n.toNat := by
  refine guards_of_advance (b.setHead ·) hv hsum (fun r hr => ?_) fun x hx hle => ?_
  · rw [call_take] at hr
    exact (Option.some.inj hr).symm
  · rw [len_eq, len_eq, rep_setHead]
    exact ⟨⟨hle, hv.tail_le⟩, Nat.sub_le_sub_left hx _⟩

theorem guards_keep (hv : b.rep.Valid) (hsum : b.rep.head + n.toNat < usizeCount) :
    Guards b (.keep n) n.toNat := by
  intro r hr
  obtain ⟨setTail, hrep, hcall⟩ := call_keep hr
  have hsame : ∀ r', b.call false (.keep n) = some r' → r' = r := by
    intro r' hr'
    rw [hr] at hr'
    exact (Option.some.inj hr').symm
  refine guards_of_advance setTail hv hsum (fun r' hr' => ?_) (fun x hx hle => ?_) r hr
  · rw [hsame r' hr', hcall]
  · rw [len_eq, len_eq, hrep]
    exact ⟨⟨hx, Nat.le_trans hle hv.tail_le⟩, Nat.sub_le_sub_right hle _⟩

/-- A `take` whose sum wraps around succeeds, although it asks for too much. -/
theorem not_guards_take (hv : b.rep.Valid) (hwraps : usizeCount ≤ b.rep.head + n.toNat) :
    ¬Guards b (.take n) n.toNat := by
  intro h
  have hn : n.toNat < usizeCount := n.toNat_lt
  have hhead := hv.head_le
  have htail := tail_lt hv
  have hcall := call_take false n b
  rw [advance_of_wraps hhead hn hwraps htail] at hcall
  have hpanics := (h _ hcall).1 (by rw [len_eq]; omega)
  cases congrArg Prod.fst hpanics

/-- An operation whose sum fits leaves a valid buffer. -/
theorem call_valid (hv : b.rep.Valid) (hop : b.rep.sumFits op = true)
    (h : b.call false op = some r) : r.2.rep.Valid := by
  by_cases hkeep : ∃ size, op = .keep size
  · obtain ⟨size, rfl⟩ := hkeep
    exact (guards_keep hv (of_decide_eq_true hop) r h).2.2.1
  · have hkeep (size : UInt64) : op ≠ .keep size := fun heq => hkeep ⟨size, heq⟩
    cases b with
    | view b =>
      obtain ⟨view', hview, hkeeps⟩ := call_view hv h
      rw [hview]
      exact hkeeps.1
    | static n b =>
      rw [call_static hkeep] at h
      obtain ⟨x, hx, rfl⟩ := Option.map_eq_some_iff.mp h
      have hsame := StaticBuffer.implements.callTrait false op hv
      rw [hx] at hsame
      exact (OwnedBuffer.callTrait_keeps hv hsame.symm).1
    | owned b =>
      rw [call_owned hkeep] at h
      obtain ⟨x, hx, rfl⟩ := Option.map_eq_some_iff.mp h
      exact (OwnedBuffer.callTrait_keeps hv hx).1

end AnyBuffer

/-! ## Runs -/

/-- No sum of the step wraps around. -/
def Nested.sumFits (s : Nested) : Label → Bool
  | .op op => s.top.rep.sumFits op
  | _ => true

/-- The buffer in use and those below it are valid. -/
def Nested.Valid (s : Nested) : Prop := s.top.rep.Valid ∧ ∀ b ∈ s.below, b.rep.Valid

theorem Nested.Valid.view {s : Nested} {view : BufferView} (h : s.Valid)
    (hview : s.top.viewOf = some view) : Nested.Valid ⟨.view view, s.top :: s.below⟩ := by
  refine ⟨?_, List.forall_mem_cons.mpr h⟩
  rw [AnyBuffer.viewOf_eq h.1] at hview
  cases hview
  refine ⟨?_, Nat.le_refl _⟩
  show s.top.rep.head ≤ (s.top.rep.data.bytes.take s.top.rep.tail).length
  rw [List.length_take]
  exact Nat.le_min.mpr ⟨h.1.head_le, Nat.le_trans h.1.head_le h.1.tail_le⟩

theorem Nested.Valid.endView {below : List AnyBuffer} (value : List UInt8)
    (h : ∀ b' ∈ b :: below, b'.rep.Valid) : Nested.Valid ⟨b.write 0 value, below⟩ := by
  obtain ⟨hb, hbelow⟩ := List.forall_mem_cons.mp h
  refine ⟨?_, hbelow⟩
  rw [AnyBuffer.rep_write]
  refine ⟨hb.head_le, ?_⟩
  rw [Memory.length_copyFromSlice]
  exact hb.tail_le

/-- **The step**: a step without a sum that wraps around keeps all buffers valid. -/
theorem Nested.Valid.step {s : Nested} (h : s.Valid) (hfits : s.sumFits l = true)
    (hr : s.step false l = some r) : r.2.Valid := by
  cases l with
  | op op =>
    obtain ⟨r', hcall, rfl⟩ := Option.map_eq_some_iff.mp hr
    exact ⟨AnyBuffer.call_valid h.1 hfits hcall, h.2⟩
  | view =>
    simp only [Nested.step] at hr
    split at hr
    · cases hr
      exact h
    · next view hview =>
      cases hr
      exact h.view hview
  | endView =>
    simp only [Nested.step] at hr
    split at hr
    · next b below view hbelow htop =>
      cases hr
      exact .endView _ (hbelow ▸ h.2)
    · cases hr

theorem valid_of_make {start : Start} (h : start.make checked = some b) : b.rep.Valid := by
  have hrep := start.represents checked
  rw [h] at hrep
  generalize start.abstract = a at hrep
  cases hrep with
  | some hrep => exact hrep.valid

theorem valid_of_reaches (hb : b.rep.Valid)
    (h : (buffers false b).Reaches (fun s l => s.1.sumFits l = true) s) : s.1.Valid := by
  refine h.invariant (P := fun s => s.1.Valid) ⟨hb, fun _ hmem => absurd hmem List.not_mem_nil⟩ ?_
  intro s l s' hvalid hfits hs
  obtain ⟨r, hr, rfl⟩ := Option.map_eq_some_iff.mp hs
  exact hvalid.step hfits hr

/-- **The bounds** of `take` and `keep` hold, in every state that is reached without a sum
that wraps around, for the arguments that do not make one. -/
theorem guards_iff (start : Start) (b : AnyBuffer) (hb : start.make false = some b)
    (s : Nested × List Output)
    (h : (buffers false b).Reaches (fun s l => s.1.sumFits l = true) s) (n : UInt64) :
    (Guards s.1.top (.take n) n.toNat ∧ Guards s.1.top (.keep n) n.toNat) ↔
      s.1.top.rep.head + n.toNat < usizeCount := by
  have hv := (valid_of_reaches (valid_of_make hb) h).1
  constructor
  · rintro ⟨htake, -⟩
    exact Nat.lt_of_not_le fun hwraps => AnyBuffer.not_guards_take hv hwraps htake
  · intro hsum
    exact ⟨AnyBuffer.guards_take hv hsum, AnyBuffer.guards_keep hv hsum⟩

/-- Two bytes of eight are initialized; one of them is taken. -/
theorem guards_packet : ∃ s, ((buffers false (.owned packet)).Reaches
      (fun s l => s.1.sumFits l = true) s) ∧ s.1.top.asSlice = [2] ∧
    Guards s.1.top (.take 5) 5 ∧ Guards s.1.top (.keep 5) 5 := by
  have hmake : (Start.ownedWith 8 [1, 2]).make false = some (.owned packet) := by decide +kernel
  have hrun : (((buffers false (.owned packet)).restrict fun s l => s.1.sumFits l).run
      (buffers false (.owned packet)).start [.op (.take 1)]).any
      (fun s => s.1.top.asSlice = [2] ∧ s.1.top.rep.head = 7) = true := by decide +kernel
  obtain ⟨s, hreaches, hs⟩ := System.exists_restrict_run hrun
  obtain ⟨hslice, hhead⟩ := of_decide_eq_true hs
  refine ⟨s, hreaches, hslice, (guards_iff _ _ hmake s hreaches 5).mpr ?_⟩
  rw [hhead]
  decide

/-- Without overflow checks, a `take` of 2^64 - 1 bytes makes the contents grow, and a
`keep` of as many puts `head` behind `tail`. -/
theorem exists_take_grows : ∃ b : AnyBuffer, (Start.ownedWith 8 [1, 2]).make false = some b ∧
    b.asSlice = [1, 2] ∧
    (b.call false (.take (-1))).any (fun r => r.1 = .done ∧ r.2.asSlice = [0, 1, 2]) = true ∧
    (b.call false (.keep (-1))).any (fun r => r.1 = .done ∧ r.2.rep.tail < r.2.rep.head) = true :=
  ⟨.owned packet, by decide +kernel, rfl, by decide +kernel, by decide +kernel⟩

end Kimojio.Buffer
