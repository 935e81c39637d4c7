import Kimojio.Ring.Completion
import Mathlib.Data.List.Perm.Basic

/-!
# Kimojio.Ring.Ownership

Who refers to a completion.

A reference is held by the program, is on its way through the kernel, or is
in the pool, and `Owns` says what these three have to do with the strong
counts and the states: a completion is submitted exactly while one reference
to it is in flight, and nothing else refers to a pooled one. There is one
lemma for every way in which a reference moves.
-/

namespace Kimojio.Ring

/-- What is taken out of a list, and the rest. -/
theorem perm_cons_eraseIdx {l : List α} (h : l[i]? = some x) : l.Perm (x :: l.eraseIdx i) := by
  obtain ⟨hi, rfl⟩ := List.getElem?_eq_some_iff.mp h
  exact (List.getElem_cons_eraseIdx_perm hi).symm

/-- The references of the program and of the kernel, and the pool, account for
the heap. -/
structure Owns (held flight : List Ref) (heap : RcHeap Completion) (pool : List Nat) : Prop where
  owned : heap.Owned ((held ++ flight).map Ref.addr ++ pool)
  own : ∀ r ∈ held ++ flight, ∀ c, heap.get r.addr = some c → c.op = r.op
  submitted : ∀ a c, heap.get a = some c → (c.state.isSubmitted = true ↔ a ∈ flight.map Ref.addr)
  once : (flight.map Ref.addr).Nodup
  pooled : ∀ r ∈ held ++ flight, r.addr ∉ pool
  distinct : pool.Nodup

namespace Owns

variable {held flight : List Ref} {heap : RcHeap Completion} {pool : List Nat} {r : Ref}

theorem empty : Owns [] [] RcHeap.empty [] where
  owned := .empty
  own := fun _ h => absurd h (by simp)
  submitted := fun _ _ h => by cases h
  once := List.nodup_nil
  pooled := fun _ h => absurd h (by simp)
  distinct := List.nodup_nil

section
variable (h : Owns held flight heap pool)
include h

theorem perm (hh : held.Perm held') (hf : flight.Perm flight') :
    Owns held' flight' heap pool := by
  have hall : (held ++ flight).Perm (held' ++ flight') := hh.append hf
  constructor
  · exact h.owned.perm ((hall.map _).append_right pool)
  · exact fun r hr => h.own r (hall.mem_iff.mpr hr)
  · exact fun a c hc => (h.submitted a c hc).trans (hf.map _).mem_iff
  · exact ((hf.map _).nodup_iff).mp h.once
  · exact fun r hr => h.pooled r (hall.mem_iff.mpr hr)
  · exact h.distinct

theorem exists_get (hr : r ∈ held ++ flight) :
    ∃ c, heap.get r.addr = some c ∧ c.op = r.op := by
  have hmem : r.addr ∈ (held ++ flight).map Ref.addr ++ pool :=
    List.mem_append_left _ (List.mem_map_of_mem hr)
  obtain ⟨c, hc⟩ := h.owned.exists_get hmem
  exact ⟨c, hc, h.own r hr c hc⟩

/-- A reference from the kernel is the only one of its kind. -/
theorem flight_submitted (hr : r ∈ flight)
    (hc : heap.get r.addr = some c) : c.state.isSubmitted = true :=
  (h.submitted _ c hc).mpr (List.mem_map_of_mem hr)

theorem clone (hr : r ∈ held) :
    Owns (r :: held) flight (heap.clone r.addr) pool := by
  have hmem : r ∈ held ++ flight := List.mem_append_left _ hr
  have hall : ∀ q ∈ r :: held ++ flight, q ∈ held ++ flight := by
    intro q hq
    rcases List.mem_cons.mp hq with rfl | hq
    · exact hmem
    · exact hq
  constructor
  · exact h.owned.clone (List.mem_append_left _ (List.mem_map_of_mem hmem))
  · intro q hq c hc
    rw [RcHeap.get_clone] at hc
    exact h.own q (hall q hq) c hc
  · intro a c hc
    rw [RcHeap.get_clone] at hc
    exact h.submitted a c hc
  · exact h.once
  · exact fun q hq => h.pooled q (hall q hq)
  · exact h.distinct

end

/-- One reference less; what it points to may be gone. -/
theorem drop (h : Owns (r :: held) flight heap pool) :
    Owns held flight (heap.drop r.addr) pool := by
  have hget : ∀ a c, (heap.drop r.addr).get a = some c → heap.get a = some c := by
    intro a c hc
    rw [RcHeap.get_drop] at hc
    split at hc
    · cases hc
    · exact hc
  constructor
  · exact h.owned.drop
  · exact fun q hq c hc => h.own q (List.mem_cons_of_mem _ hq) c (hget _ c hc)
  · exact fun a c hc => h.submitted a c (hget a c hc)
  · exact h.once
  · exact fun q hq => h.pooled q (List.mem_cons_of_mem _ hq)
  · exact h.distinct

theorem toPool (h : Owns (r :: held) flight heap pool) (hone : heap.strongCount r.addr = 1) :
    Owns held flight heap (pool ++ [r.addr]) := by
  have halone : r.addr ∉ (held ++ flight).map Ref.addr ++ pool := h.owned.unique_iff.mp hone
  rw [List.mem_append, not_or] at halone
  constructor
  · refine h.owned.perm ?_
    show (r.addr :: ((held ++ flight).map Ref.addr ++ pool)).Perm _
    rw [← List.append_assoc]
    exact (List.perm_append_singleton _ _).symm
  · exact fun q hq => h.own q (List.mem_cons_of_mem _ hq)
  · exact h.submitted
  · exact h.once
  · intro q hq hmem
    rcases List.mem_append.mp hmem with hmem | hmem
    · exact h.pooled q (List.mem_cons_of_mem _ hq) hmem
    · rw [List.mem_singleton] at hmem
      exact halone.1 (hmem ▸ List.mem_map_of_mem hq)
  · rw [List.nodup_append]
    refine ⟨h.distinct, by simp, fun a ha b hb => ?_⟩
    rw [List.mem_singleton] at hb
    subst hb
    exact fun heq => halone.2 (heq ▸ ha)

/-- A change that keeps the operation, while the kernel has or has not a
reference to it afterwards. -/
theorem update (h : Owns held flight heap pool) (hall : (held ++ flight).Perm (held' ++ flight'))
    (honce : (flight'.map Ref.addr).Nodup) (hop : ∀ c, (f c).op = c.op)
    (hsub : ∀ c, heap.get a = some c →
      ((f c).state.isSubmitted = true ↔ a ∈ flight'.map Ref.addr))
    (hothers : ∀ b, b ≠ a → (b ∈ flight.map Ref.addr ↔ b ∈ flight'.map Ref.addr)) :
    Owns held' flight' (heap.modify a f) pool := by
  constructor
  · exact (h.owned.modify f).perm ((hall.map _).append_right pool)
  · intro q hq c hc
    rw [RcHeap.get_modify] at hc
    split at hc
    · next hb =>
      obtain ⟨c₀, hc₀, rfl⟩ := Option.map_eq_some_iff.mp hc
      rw [hop]
      exact h.own q (hall.mem_iff.mpr hq) c₀ (hb ▸ hc₀)
    · exact h.own q (hall.mem_iff.mpr hq) c hc
  · intro b c hc
    rw [RcHeap.get_modify] at hc
    split at hc
    · next hb =>
      obtain ⟨c₀, hc₀, rfl⟩ := Option.map_eq_some_iff.mp hc
      exact hb ▸ hsub c₀ hc₀
    · next hne => exact (h.submitted b c hc).trans (hothers b hne)
  · exact honce
  · exact fun q hq => h.pooled q (hall.mem_iff.mpr hq)
  · exact h.distinct

/-- A change that keeps the operation and the kernel's reference. -/
theorem modify (h : Owns held flight heap pool) (hop : ∀ c, (f c).op = c.op)
    (hsub : ∀ c, heap.get a = some c → (f c).state.isSubmitted = c.state.isSubmitted) :
    Owns held flight (heap.modify a f) pool := by
  refine h.update (.refl _) h.once hop (fun c hc => ?_) fun _ _ => Iff.rfl
  rw [hsub c hc]
  exact h.submitted a c hc

theorem submit (h : Owns (r :: held) flight heap pool)
    (hidle : ∀ c, heap.get r.addr = some c → c.state.isSubmitted = false)
    (hop : ∀ c, (f c).op = c.op) (hsub : ∀ c, (f c).state.isSubmitted = true) :
    Owns held (r :: flight) (heap.modify r.addr f) pool := by
  obtain ⟨c, hc, _⟩ := h.exists_get (List.mem_cons_self ..)
  have hout : r.addr ∉ flight.map Ref.addr := by
    rw [← h.submitted _ c hc, hidle c hc]
    decide
  exact h.update List.perm_middle.symm (List.nodup_cons.mpr ⟨hout, h.once⟩) hop
    (fun c _ => by simp [hsub]) fun b hb => by simp [hb]

theorem complete (h : Owns held (r :: flight) heap pool) (hop : ∀ c, (f c).op = c.op)
    (hsub : ∀ c, (f c).state.isSubmitted = false) :
    Owns (r :: held) flight (heap.modify r.addr f) pool := by
  obtain ⟨hout, honce⟩ := List.nodup_cons.mp h.once
  refine h.update List.perm_middle honce hop (fun c _ => ?_) fun b hb => by simp [hb]
  rw [hsub]
  exact iff_of_false Bool.false_ne_true hout

/-- A pooled completion is overwritten for another operation. -/
theorem reuse (h : Owns held flight heap (a :: pool)) (hidle : c.state.isSubmitted = false) :
    Owns (⟨a, c.op⟩ :: held) flight (heap.modify a fun _ => c) pool := by
  have hpooled : ∀ q ∈ held ++ flight, q.addr ≠ a ∧ q.addr ∉ pool := by
    intro q hq
    have hq' := h.pooled q hq
    rw [List.mem_cons, not_or] at hq'
    exact hq'
  have hdistinct := List.nodup_cons.mp h.distinct
  constructor
  · exact (h.owned.modify _).perm List.perm_middle
  · intro q hq c' hc'
    rw [RcHeap.get_modify] at hc'
    rcases List.mem_cons.mp hq with rfl | hq
    · rw [if_pos rfl] at hc'
      obtain ⟨_, _, rfl⟩ := Option.map_eq_some_iff.mp hc'
      rfl
    · rw [if_neg (hpooled q hq).1] at hc'
      exact h.own q hq c' hc'
  · intro b c' hc'
    rw [RcHeap.get_modify] at hc'
    split at hc'
    · next heq =>
      obtain ⟨_, _, rfl⟩ := Option.map_eq_some_iff.mp hc'
      have hout : b ∉ flight.map Ref.addr := by
        intro hmem
        obtain ⟨q, hq, hqb⟩ := List.mem_map.mp hmem
        exact (hpooled q (List.mem_append_right _ hq)).1 (hqb.trans heq)
      simp [hidle, hout]
    · exact h.submitted b c' hc'
  · exact h.once
  · intro q hq
    rcases List.mem_cons.mp hq with rfl | hq
    · exact hdistinct.1
    · exact (hpooled q hq).2
  · exact hdistinct.2

theorem alloc (h : Owns held flight heap pool) (hfree : heap.cell a = none)
    (hidle : c.state.isSubmitted = false) :
    Owns (⟨a, c.op⟩ :: held) flight (heap.alloc a c) pool := by
  have hout : a ∉ (held ++ flight).map Ref.addr ++ pool := by
    intro hmem
    obtain ⟨_, hc⟩ := h.owned.exists_cell hmem
    rw [hfree] at hc
    cases hc
  rw [List.mem_append, not_or] at hout
  constructor
  · exact h.owned.alloc c hfree
  · intro q hq c' hc'
    rw [RcHeap.get_alloc] at hc'
    rcases List.mem_cons.mp hq with rfl | hq
    · rw [if_pos rfl] at hc'
      cases hc'
      rfl
    · have hne : q.addr ≠ a := fun heq => hout.1 (heq ▸ List.mem_map_of_mem hq)
      rw [if_neg hne] at hc'
      exact h.own q hq c' hc'
  · intro b c' hc'
    rw [RcHeap.get_alloc] at hc'
    split at hc'
    · next heq =>
      cases hc'
      have hout' : b ∉ flight.map Ref.addr := by
        intro hmem
        exact hout.1 (by rw [List.map_append]; exact List.mem_append_right _ (heq ▸ hmem))
      simp [hidle, hout']
    · exact h.submitted b c' hc'
  · exact h.once
  · intro q hq
    rcases List.mem_cons.mp hq with rfl | hq
    · exact hout.2
    · exact h.pooled q hq
  · exact h.distinct

end Owns

/-! ## Operations go forward -/

namespace CompletionState

/-- How far an operation is. -/
def rank : CompletionState → Nat
  | .idle _ _ => 0
  | .submitted false => 1
  | .submitted true => 2
  | .completed _ => 3
  | .terminated => 4

theorem isFinished_iff (s : CompletionState) : s.isFinished = true ↔ 3 ≤ s.rank := by
  cases s with
  | submitted canceled => cases canceled <;> decide
  | _ => simp [isFinished, rank]

theorem eq_terminated {s : CompletionState} (h : 4 ≤ s.rank) : s = .terminated := by
  cases s with
  | terminated => rfl
  | submitted canceled => cases canceled <;> simp [rank] at h
  | _ => simp [rank] at h

end CompletionState

/-- A later state of the same operation, which may have ended meanwhile if
`ends`. -/
structure Completion.Later (ends : Prop) (c c' : Completion) : Prop where
  op : c'.op = c.op
  rank : c.state.rank ≤ c'.state.rank
  ended : c'.state.isFinished = true → c.state.isFinished = true ∨ ends

theorem Completion.Later.refl (c : Completion) : c.Later ends c := ⟨rfl, Nat.le_refl _, .inl⟩

/-- Every completion of the second heap is a later state of the one that was
at its address. -/
def Later (ends : Nat → Prop) (heap heap' : RcHeap Completion) : Prop :=
  ∀ a c', heap'.get a = some c' → ∃ c, heap.get a = some c ∧ c.Later (ends a) c'

namespace Later

variable {ends : Nat → Prop} {heap heap₁ heap₂ : RcHeap Completion}

theorem refl (heap : RcHeap Completion) : Later ends heap heap := fun _ c h => ⟨c, h, .refl c⟩

theorem trans (h : Later ends heap heap₁) (h' : Later ends heap₁ heap₂) :
    Later ends heap heap₂ := by
  intro a c₂ hc₂
  obtain ⟨c₁, hc₁, hl₁⟩ := h' a c₂ hc₂
  obtain ⟨c, hc, hl⟩ := h a c₁ hc₁
  refine ⟨c, hc, hl₁.op.trans hl.op, Nat.le_trans hl.rank hl₁.rank, fun hended => ?_⟩
  exact (hl₁.ended hended).elim hl.ended .inr

theorem clone (heap : RcHeap Completion) (a : Nat) : Later ends heap (heap.clone a) := by
  intro b c hc
  rw [RcHeap.get_clone] at hc
  exact ⟨c, hc, .refl c⟩

theorem drop (heap : RcHeap Completion) (a : Nat) : Later ends heap (heap.drop a) := by
  intro b c hc
  rw [RcHeap.get_drop] at hc
  split at hc
  · cases hc
  · exact ⟨c, hc, .refl c⟩

theorem modify (h : ∀ c, heap.get a = some c → c.Later (ends a) (f c)) :
    Later ends heap (heap.modify a f) := by
  intro b c' hc'
  rw [RcHeap.get_modify] at hc'
  split at hc'
  · next hb =>
    obtain ⟨c, hc, rfl⟩ := Option.map_eq_some_iff.mp hc'
    exact ⟨c, hb ▸ hc, hb ▸ h c hc⟩
  · exact ⟨c', hc', .refl c'⟩

end Later

end Kimojio.Ring
