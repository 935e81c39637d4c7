/-!
# Kimojio.PriorityQueue

A priority queue, given by the bag of its elements. `le` is its order, and
the greatest element comes out first; which one of several equal elements
that is, is left open by the order of the list.

The loop that takes elements out as long as they pass a test takes out
exactly those that pass it, in order (`drain_spec`), if what comes out
earlier passes the test whenever something later does.
-/

namespace Kimojio.PriorityQueue

section

variable (le : α → α → Bool)

/-- Takes the greatest element out. -/
def pop : List α → Option (α × List α)
  | [] => none
  | x :: xs =>
    match pop xs with
    | none => some (x, [])
    | some (top, rest) => if le x top then some (top, x :: rest) else some (x, top :: rest)

def peek (q : List α) : Option α := (pop le q).map Prod.fst

/-- Takes elements out as long as they pass the test, for a number of
rounds. -/
def drain (p : α → Bool) : Nat → List α → List α × List α
  | 0, q => ([], q)
  | fuel + 1, q =>
    match pop le q with
    | none => ([], q)
    | some (top, rest) =>
      if p top then
        let (out, q) := drain p fuel rest
        (top :: out, q)
      else ([], q)

end

variable {le : α → α → Bool} {p : α → Bool} {q rest : List α} {top : α}

theorem pop_perm (h : pop le q = some (top, rest)) : q.Perm (top :: rest) := by
  induction q generalizing top rest with
  | nil => cases h
  | cons x xs ih =>
    unfold pop at h
    split at h
    · next hnone =>
      cases h
      cases xs with
      | nil => exact .refl _
      | cons y ys =>
        unfold pop at hnone
        split at hnone
        · cases hnone
        · split at hnone <;> cases hnone
    · next top' rest' hsome =>
      have hperm := ih hsome
      split at h
      · cases h
        exact (hperm.cons x).trans (.swap ..)
      · cases h
        exact hperm.cons _

theorem pop_eq_none : pop le q = none ↔ q = [] := by
  cases q with
  | nil => simp [pop]
  | cons x xs =>
    unfold pop
    cases pop le xs with
    | none => simp
    | some r =>
      dsimp only
      split <;> simp

section

variable (htotal : ∀ x y, le x y = true ∨ le y x = true)
  (htrans : ∀ x y z, le x y = true → le y z = true → le x z = true)
include htotal htrans

theorem pop_le (h : pop le q = some (top, rest)) : ∀ x ∈ rest, le x top = true := by
  induction q generalizing top rest with
  | nil => cases h
  | cons x xs ih =>
    unfold pop at h
    split at h
    · cases h
      simp
    · next top' rest' hsome =>
      have hbelow := ih hsome
      split at h
      · next hle =>
        cases h
        intro y hy
        rcases List.mem_cons.mp hy with rfl | hy
        · exact hle
        · exact hbelow y hy
      · next hnot =>
        cases h
        have habove : le top' x = true := (htotal top' x).resolve_right hnot
        intro y hy
        rcases List.mem_cons.mp hy with rfl | hy
        · exact habove
        · exact htrans y top' x (hbelow y hy) habove

/-- What the loop has taken out, and what it has left. -/
structure Drained (le : α → α → Bool) (p : α → Bool) (q out left : List α) : Prop where
  perm : q.Perm (out ++ left)
  passed : ∀ x ∈ out, p x = true
  failed : ∀ x ∈ left, p x = false
  sorted : out.Pairwise fun x y => le y x = true

/-- **The loop** takes out what passes the test, in order. -/
theorem drain_spec (hp : ∀ x y, le x y = true → p x = true → p y = true) (hfuel : q.length ≤ fuel) :
    Drained le p q (drain le p fuel q).1 (drain le p fuel q).2 := by
  induction fuel generalizing q with
  | zero =>
    obtain rfl : q = [] := List.length_eq_zero_iff.mp (Nat.le_zero.mp hfuel)
    exact ⟨.refl _, by simp [drain], by simp [drain], .nil⟩
  | succ fuel ih =>
    unfold drain
    split
    · next hnone =>
      obtain rfl := pop_eq_none.mp hnone
      exact ⟨.refl _, by simp, by simp, .nil⟩
    · next top rest hsome =>
      have hperm := pop_perm hsome
      have hbelow := pop_le htotal htrans hsome
      split
      · next htop =>
        have hlength := hperm.length_eq
        simp only [List.length_cons] at hlength
        have hrest := ih (q := rest) (by omega)
        refine ⟨hperm.trans (hrest.perm.cons top), ?_, hrest.failed, ?_⟩
        · intro x hx
          rcases List.mem_cons.mp hx with rfl | hx
          · exact htop
          · exact hrest.passed x hx
        · refine List.pairwise_cons.mpr ⟨fun x hx => hbelow x ?_, hrest.sorted⟩
          exact hrest.perm.mem_iff.mpr (List.mem_append_left _ hx)
      · next htop =>
        refine ⟨.refl _, by simp, ?_, .nil⟩
        intro x hx
        refine Bool.eq_false_iff.mpr fun hpass => htop ?_
        rcases List.mem_cons.mp (hperm.mem_iff.mp hx) with rfl | hx
        · exact hpass
        · exact hp x top (hbelow x hx) hpass

end

section
variable (h : Drained le p q out left)
include h

/-- What is taken out is what passes the test. -/
theorem Drained.out_perm : out.Perm (q.filter p) := by
  have hout : out.filter p = out := List.filter_eq_self.mpr h.passed
  have hleft : left.filter p = [] :=
    List.filter_eq_nil_iff.mpr fun x hx => by simp [h.failed x hx]
  have hfilter := h.perm.filter p
  rw [List.filter_append, hout, hleft, List.append_nil] at hfilter
  exact hfilter.symm

theorem Drained.left_perm : left.Perm (q.filter fun x => !p x) := by
  have hout : out.filter (fun x => !p x) = [] :=
    List.filter_eq_nil_iff.mpr fun x hx => by simp [h.passed x hx]
  have hleft : left.filter (fun x => !p x) = left :=
    List.filter_eq_self.mpr fun x hx => by simp [h.failed x hx]
  have hfilter := h.perm.filter fun x => !p x
  rw [List.filter_append, hout, hleft, List.nil_append] at hfilter
  exact hfilter.symm

/-- A second loop, with a weaker test, goes on where the first one stopped. -/
theorem Drained.append (h' : Drained le p' left out' left')
    (hweaker : ∀ x, p x = true → p' x = true)
    (hbefore : ∀ x y, p x = true → p y = false → le y x = true) :
    Drained le p' q (out ++ out') left' where
  perm := by
    rw [List.append_assoc]
    exact h.perm.trans (h'.perm.append_left out)
  passed := by
    intro x hx
    rcases List.mem_append.mp hx with hx | hx
    · exact hweaker x (h.passed x hx)
    · exact h'.passed x hx
  failed := h'.failed
  sorted := by
    refine List.pairwise_append.mpr ⟨h.sorted, h'.sorted, fun x hx y hy => ?_⟩
    have hleft : y ∈ left := h'.perm.mem_iff.mpr (List.mem_append_left _ hy)
    exact hbefore x y (h.passed x hx) (h.failed y hleft)

/-- What comes out is determined, if no two elements are equal. -/
theorem Drained.unique (h' : Drained le p q out' left')
    (hanti : ∀ x ∈ q, ∀ y ∈ q, le x y = true → le y x = true → x = y) : out = out' := by
  have hmem {out left : List α} (h : Drained le p q out left) {x : α} (hx : x ∈ out) : x ∈ q :=
    h.perm.mem_iff.mpr (List.mem_append_left _ hx)
  refine List.Perm.eq_of_pairwise ?_ h.sorted h'.sorted (h.out_perm.trans h'.out_perm.symm)
  exact fun x y hx hy hyx hxy => hanti x (hmem h hx) y (hmem h' hy) hxy hyx

end

theorem peek_eq_none : peek le q = none ↔ q = [] := by
  unfold peek
  rw [Option.map_eq_none_iff, pop_eq_none]

theorem peek_spec (htotal : ∀ x y, le x y = true ∨ le y x = true)
    (htrans : ∀ x y z, le x y = true → le y z = true → le x z = true)
    (h : peek le q = some top) : top ∈ q ∧ ∀ x ∈ q, le x top = true := by
  obtain ⟨⟨top', rest⟩, hpop, rfl⟩ := Option.map_eq_some_iff.mp h
  have hperm := pop_perm hpop
  refine ⟨hperm.mem_iff.mpr (List.mem_cons_self ..), fun x hx => ?_⟩
  rcases List.mem_cons.mp (hperm.mem_iff.mp hx) with rfl | hx
  · exact (htotal x x).elim id id
  · exact pop_le htotal htrans hpop x hx

end Kimojio.PriorityQueue
