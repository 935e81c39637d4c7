/-!
# Kimojio.RcHeap

A heap of reference counted values.

A value lives at an address together with its strong count. `Owned` says
that the heap is owned by a list of references: every address occurs in the
list as often as its count says, and what nobody refers to is free. There is
one lemma for each operation; a reference that is held in a local variable is
one more entry of the list.
-/

namespace Kimojio

structure RcCell (α : Type u) where
  strong : Nat
  value : α
  deriving DecidableEq, Repr

/-- The cells by their addresses. -/
structure RcHeap (α : Type u) where
  cell : Nat → Option (RcCell α)

namespace RcHeap

def empty : RcHeap α := ⟨fun _ => none⟩

/-- The value at an address. -/
def get (h : RcHeap α) (a : Nat) : Option α := (h.cell a).map RcCell.value

def strongCount (h : RcHeap α) (a : Nat) : Nat := ((h.cell a).map RcCell.strong).getD 0

/-- Changes the cell at an address. -/
def update (h : RcHeap α) (a : Nat) (cell : Option (RcCell α)) : RcHeap α :=
  ⟨fun i => if i = a then cell else h.cell i⟩

/-- A new value at a free address, with one reference. -/
def alloc (h : RcHeap α) (a : Nat) (value : α) : RcHeap α := h.update a (some ⟨1, value⟩)

/-- Changes a value in place. -/
def modify (h : RcHeap α) (a : Nat) (f : α → α) : RcHeap α :=
  match h.cell a with
  | some c => h.update a (some { c with value := f c.value })
  | none => h

/-- One reference more. -/
def clone (h : RcHeap α) (a : Nat) : RcHeap α :=
  match h.cell a with
  | some c => h.update a (some { c with strong := c.strong + 1 })
  | none => h

/-- One reference less; the last one frees the value. -/
def drop (h : RcHeap α) (a : Nat) : RcHeap α :=
  match h.cell a with
  | some c => h.update a (if c.strong ≤ 1 then none else some { c with strong := c.strong - 1 })
  | none => h

/-! ## What the operations leave -/

section

variable (h : RcHeap α) (a b : Nat)

theorem cell_update (c : Option (RcCell α)) :
    (h.update a c).cell b = if b = a then c else h.cell b := rfl

theorem cell_modify (f : α → α) : (h.modify a f).cell b =
    if b = a then (h.cell a).map (fun c => { c with value := f c.value }) else h.cell b := by
  unfold modify
  split
  · next c hc => rw [cell_update, hc]; rfl
  · next hc =>
    split
    · next hb => rw [hb, hc]; rfl
    · rfl

theorem cell_clone : (h.clone a).cell b =
    if b = a then (h.cell a).map (fun c => { c with strong := c.strong + 1 }) else h.cell b := by
  unfold clone
  split
  · next c hc => rw [cell_update, hc]; rfl
  · next hc =>
    split
    · next hb => rw [hb, hc]; rfl
    · rfl

theorem cell_drop : (h.drop a).cell b =
    if b = a then (h.cell a).bind (fun c =>
      if c.strong ≤ 1 then none else some { c with strong := c.strong - 1 })
    else h.cell b := by
  unfold drop
  split
  · next c hc => rw [cell_update, hc]; rfl
  · next hc =>
    split
    · next hb => rw [hb, hc]; rfl
    · rfl

theorem get_alloc (v : α) : (h.alloc a v).get b = if b = a then some v else h.get b := by
  unfold get alloc
  rw [cell_update]
  split <;> rfl

/-- What is found after an allocation: the new value, or an old one. -/
theorem cases_alloc (hget : (h.alloc a v).get b = some v') :
    b = a ∧ v' = v ∨ h.get b = some v' := by
  rw [get_alloc] at hget
  split at hget
  · next hb => exact .inl ⟨hb, (Option.some.inj hget).symm⟩
  · exact .inr hget

theorem get_modify (f : α → α) :
    (h.modify a f).get b = if b = a then (h.get a).map f else h.get b := by
  unfold get
  rw [cell_modify]
  split
  · cases h.cell a <;> rfl
  · rfl

/-- What is found after a value was overwritten. -/
theorem cases_overwrite (hget : (h.modify a fun _ => v).get b = some v') :
    b = a ∧ v' = v ∨ h.get b = some v' := by
  rw [get_modify] at hget
  split at hget
  · next hb =>
    obtain ⟨_, _, rfl⟩ := Option.map_eq_some_iff.mp hget
    exact .inl ⟨hb, rfl⟩
  · exact .inr hget

theorem strongCount_modify (f : α → α) : (h.modify a f).strongCount b = h.strongCount b := by
  unfold strongCount
  rw [cell_modify]
  split
  · next hb =>
    rw [hb, Option.map_map]
    rfl
  · rfl

theorem get_clone : (h.clone a).get b = h.get b := by
  unfold get
  rw [cell_clone]
  split
  · next hb => rw [hb]; cases h.cell a <;> rfl
  · rfl

/-- A reference that is dropped frees its value or leaves it. -/
theorem get_drop : (h.drop a).get b = if b = a ∧ h.strongCount a ≤ 1 then none else h.get b := by
  unfold get strongCount
  rw [cell_drop]
  by_cases hb : b = a
  · subst hb
    cases hc : h.cell b with
    | none => simp
    | some c => by_cases hle : c.strong ≤ 1 <;> simp [hle]
  · simp [hb]

end

/-! ## Ownership -/

/-- The heap is owned by the references. -/
structure Owned (h : RcHeap α) (refs : List Nat) : Prop where
  count : ∀ a, h.strongCount a = refs.count a
  free : ∀ a, a ∉ refs → h.cell a = none

namespace Owned

variable {h : RcHeap α} {refs : List Nat} {a : Nat}

theorem empty : Owned (RcHeap.empty : RcHeap α) [] where
  count := fun _ => rfl
  free := fun _ _ => rfl

theorem perm (ho : Owned h refs) (hp : refs.Perm refs') : Owned h refs' where
  count := fun a => (ho.count a).trans (hp.count_eq a)
  free := fun a ha => ho.free a fun hmem => ha (hp.mem_iff.mp hmem)

theorem exists_cell (ho : Owned h refs) (ha : a ∈ refs) : ∃ c, h.cell a = some c := by
  have hcount := ho.count a
  have hpos : 0 < refs.count a := List.count_pos_iff.mpr ha
  cases hc : h.cell a with
  | some c => exact ⟨c, rfl⟩
  | none =>
    simp only [strongCount, hc, Option.map_none, Option.getD_none] at hcount
    omega

theorem exists_get (ho : Owned h refs) (ha : a ∈ refs) : ∃ v, h.get a = some v := by
  obtain ⟨c, hc⟩ := ho.exists_cell ha
  exact ⟨c.value, by rw [get, hc]; rfl⟩

/-- The count is one exactly when there is no other reference. -/
theorem unique_iff (ho : Owned h (a :: refs)) : h.strongCount a = 1 ↔ a ∉ refs := by
  rw [ho.count, List.count_cons_self, ← List.count_eq_zero]
  omega

theorem modify (f : α → α) (ho : Owned h refs) : Owned (h.modify a f) refs where
  count := by
    intro b
    rw [strongCount_modify, ho.count b]
  free := by
    intro b hb
    rw [cell_modify]
    split
    · next heq => rw [← heq, ho.free b hb]; rfl
    · exact ho.free b hb

theorem alloc (v : α) (ho : Owned h refs) (ha : h.cell a = none) :
    Owned (h.alloc a v) (a :: refs) := by
  have hzero : refs.count a = 0 := by
    rw [← ho.count a, strongCount, ha]
    rfl
  constructor
  · intro b
    unfold strongCount RcHeap.alloc
    rw [cell_update, List.count_cons]
    by_cases hb : b = a
    · simp [hb, hzero]
    · have hcount := ho.count b
      simpa [hb, Ne.symm hb, strongCount] using hcount
  · intro b hb
    rw [List.mem_cons, not_or] at hb
    unfold RcHeap.alloc
    rw [cell_update, if_neg hb.1]
    exact ho.free b hb.2

theorem clone (ho : Owned h refs) (ha : a ∈ refs) : Owned (h.clone a) (a :: refs) := by
  obtain ⟨c, hc⟩ := ho.exists_cell ha
  constructor
  · intro b
    have hcount := ho.count b
    unfold strongCount at hcount ⊢
    rw [cell_clone, List.count_cons]
    by_cases hb : b = a
    · subst hb
      simp [hc] at hcount ⊢
      exact hcount
    · simpa [hb, Ne.symm hb] using hcount
  · intro b hb
    rw [List.mem_cons, not_or] at hb
    rw [cell_clone, if_neg hb.1]
    exact ho.free b hb.2

theorem drop (ho : Owned h (a :: refs)) : Owned (h.drop a) refs := by
  obtain ⟨c, hc⟩ := ho.exists_cell (List.mem_cons_self ..)
  have hstrong : c.strong = refs.count a + 1 := by
    have hcount := ho.count a
    simpa [strongCount, hc] using hcount
  constructor
  · intro b
    have hcount := ho.count b
    unfold strongCount at hcount ⊢
    rw [cell_drop]
    by_cases hb : b = a
    · subst hb
      by_cases hle : c.strong ≤ 1
      · simp [hc, hle]
        omega
      · simp [hc, hle]
        omega
    · simpa [hb, Ne.symm hb, List.count_cons] using hcount
  · intro b hb
    rw [cell_drop]
    split
    · next heq =>
      subst heq
      have hzero := List.count_eq_zero.mpr hb
      have hle : c.strong ≤ 1 := by omega
      simp [hc, hle]
    · next hne => exact ho.free b (by simp [hne, hb])

end Owned

end RcHeap

end Kimojio
