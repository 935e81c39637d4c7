import Mathlib.Data.List.Perm.Basic

/-!
# Kimojio.Table

Tables: lists of which the entries are known by their index, where one entry
is replaced or a new one is put at the end. A lookup after such a change is
traced to the lookup before it (`mem_of_set`, `mem_of_push`), and what is
counted over the entries changes by what the replaced entry counts for.
-/

namespace Kimojio

/-- An entry of a table of which one entry was replaced. -/
theorem mem_of_set {table : List γ} (h : (table.set s x)[s']? = some y) :
    s' = s ∧ y = x ∨ s' ≠ s ∧ table[s']? = some y := by
  rw [List.getElem?_set] at h
  split at h
  · next heq =>
    split at h
    · cases h
      exact .inl ⟨heq.symm, rfl⟩
    · cases h
  · next hne => exact .inr ⟨Ne.symm hne, h⟩

/-- What is found in a table with a new last entry. -/
theorem mem_of_push (h : (table ++ [x])[i]? = some y) :
    table[i]? = some y ∨ i = table.length ∧ y = x := by
  rw [List.getElem?_append] at h
  split at h
  · exact .inl h
  · next hge =>
    rw [List.getElem?_singleton] at h
    split at h
    · next hzero =>
      cases h
      exact .inr ⟨by omega, rfl⟩
    · cases h

/-- What the entries of a table hold, with one entry singled out that may be
replaced. -/
theorem exists_perm_flatMap_set {table : List γ} (h : table[i]? = some c) (g : γ → List α) :
    ∃ rest, (table.flatMap g).Perm (g c ++ rest) ∧
      ∀ c', ((table.set i c').flatMap g).Perm (g c' ++ rest) := by
  obtain ⟨hi, rfl⟩ := List.getElem?_eq_some_iff.mp h
  exact ⟨(table.eraseIdx i).flatMap g, (List.getElem_cons_eraseIdx_perm hi).symm.flatMap_right g,
    fun c' => (List.set_perm_cons_eraseIdx hi c').flatMap_right g⟩

/-- Counting what the entries of a table hold of which one is replaced. -/
theorem count_flatMap_set [DecidableEq α] {table : List γ} (h : table[i]? = some c)
    (g : γ → List α) (c' : γ) (a : α) :
    ((table.set i c').flatMap g).count a + (g c).count a =
      (table.flatMap g).count a + (g c').count a := by
  obtain ⟨rest, hall, hset⟩ := exists_perm_flatMap_set h g
  rw [hall.count_eq, (hset c').count_eq, List.count_append, List.count_append]
  omega

/-- Counting the entries of a table of which one is replaced. -/
theorem countP_set_toNat {table : List γ} (h : table[i]? = some c) (p : γ → Bool) (c' : γ) :
    (table.set i c').countP p + (p c).toNat = table.countP p + (p c').toNat := by
  obtain ⟨hi, rfl⟩ := List.getElem?_eq_some_iff.mp h
  rw [(List.set_perm_cons_eraseIdx hi c').countP_eq,
    ← (List.getElem_cons_eraseIdx_perm hi).countP_eq, List.countP_cons, List.countP_cons]
  cases p c' <;> cases p table[i] <;> simp

/-- If an entry of a table holds one member at most, then counting members is
counting entries. -/
theorem countP_flatMap_le {g : γ → List α} (table : List γ) (hg : ∀ c, (g c).length ≤ 1)
    (p : α → Bool) :
    (table.flatMap g).countP p ≤ table.countP fun c => (g c).any p := by
  induction table with
  | nil => exact Nat.le_refl _
  | cons c table ih =>
    rw [List.flatMap_cons, List.countP_append, List.countP_cons]
    have hle : (g c).countP p ≤ if (g c).any p then 1 else 0 := by
      have hlength := hg c
      match hgc : g c with
      | [] => simp
      | [a] => cases hp : p a <;> simp [hp]
      | a :: b :: rest => simp [hgc] at hlength
    omega

end Kimojio
