/-!
# Kimojio.Slices

A list of slices that is consumed from its front, as `IoSlice::advance_slices`
does: whole slices are taken off the list, empty ones with them, and the first
one that is left is cut. What is left of the slices is what is left of their
elements (`flatten_advanceSlices`), and to consume twice is to consume the sum
(`advanceSlices_add`).
-/

namespace Kimojio

/-- The slices after the first `n` elements are consumed. -/
def advanceSlices : List (List α) → Nat → List (List α)
  | [], _ => []
  | slice :: slices, n =>
    if slice.length ≤ n then advanceSlices slices (n - slice.length)
    else slice.drop n :: slices

section

variable {slice : List α} {slices : List (List α)} {n : Nat}

theorem advanceSlices_cons_of_le (h : slice.length ≤ n) :
    advanceSlices (slice :: slices) n = advanceSlices slices (n - slice.length) := if_pos h

theorem advanceSlices_cons_of_lt (h : n < slice.length) :
    advanceSlices (slice :: slices) n = slice.drop n :: slices := if_neg (Nat.not_le.mpr h)

theorem flatten_advanceSlices (slices : List (List α)) (n : Nat) :
    (advanceSlices slices n).flatten = slices.flatten.drop n := by
  induction slices generalizing n with
  | nil => rw [advanceSlices, List.flatten_nil, List.drop_nil]
  | cons slice slices ih =>
    by_cases hle : slice.length ≤ n
    · rw [advanceSlices_cons_of_le hle, ih, List.flatten_cons, List.drop_append,
        List.drop_of_length_le hle, List.nil_append]
    · rw [advanceSlices_cons_of_lt (Nat.not_le.mp hle), List.flatten_cons, List.flatten_cons,
        List.drop_append_of_le_length (Nat.le_of_not_le hle)]

/-- **Composition**: the elements are consumed in any number of pieces. -/
theorem advanceSlices_add (slices : List (List α)) (n k : Nat) :
    advanceSlices (advanceSlices slices n) k = advanceSlices slices (n + k) := by
  induction slices generalizing n with
  | nil => rfl
  | cons slice slices ih =>
    by_cases hle : slice.length ≤ n
    · rw [advanceSlices_cons_of_le hle, ih, advanceSlices_cons_of_le (Nat.le_add_right_of_le hle)]
      congr 1
      omega
    · rw [advanceSlices_cons_of_lt (Nat.not_le.mp hle)]
      by_cases hsum : slice.length ≤ n + k
      · have hcut : (slice.drop n).length ≤ k := by rw [List.length_drop]; omega
        rw [advanceSlices_cons_of_le hcut, advanceSlices_cons_of_le hsum, List.length_drop]
        congr 1
        omega
      · have hcut : k < (slice.drop n).length := by rw [List.length_drop]; omega
        rw [advanceSlices_cons_of_lt hcut, advanceSlices_cons_of_lt (Nat.not_le.mp hsum),
          List.drop_drop]

/-- All slices are taken off with the last element. -/
theorem advanceSlices_of_length_le (h : slices.flatten.length ≤ n) :
    advanceSlices slices n = [] := by
  induction slices generalizing n with
  | nil => rfl
  | cons slice slices ih =>
    rw [List.flatten_cons, List.length_append] at h
    rw [advanceSlices_cons_of_le (by omega)]
    exact ih (by omega)

theorem length_advanceSlices_le (slices : List (List α)) (n : Nat) :
    (advanceSlices slices n).length ≤ slices.length := by
  induction slices generalizing n with
  | nil => exact Nat.le_refl 0
  | cons slice slices ih =>
    by_cases hle : slice.length ≤ n
    · rw [advanceSlices_cons_of_le hle]
      exact Nat.le_succ_of_le (ih _)
    · rw [advanceSlices_cons_of_lt (Nat.not_le.mp hle)]
      exact Nat.le_refl _

/-- A piece that is not empty leaves fewer slices or fewer elements. -/
theorem size_advanceSlices_lt (h : slices ≠ []) (hn : 0 < n) :
    (advanceSlices slices n).flatten.length + (advanceSlices slices n).length <
      slices.flatten.length + slices.length := by
  have hslices := length_advanceSlices_le slices n
  rw [flatten_advanceSlices, List.length_drop]
  by_cases hflat : slices.flatten.length = 0
  · have hpos : 0 < slices.length := List.length_pos_iff.mpr h
    rw [advanceSlices_of_length_le (by omega), List.length_nil]
    omega
  · omega

end

end Kimojio
