/-!
# Kimojio.Control

Programs that run with an explicit list of what is still to be done, their
*control*. The operation at its head is executed, and may put other
operations in its place.

An operation runs in some modes only, and leaves a mode behind. `runsAll` is
the mode that a list of operations leaves. A control that can run to its end
stays so if every operation is replaced by operations that lead to the same
mode (`Runs.expand`).
-/

namespace Kimojio

/-- The mode after a list of operations; `none` if one of them cannot run in
the mode that it finds. -/
def runsAll (runs : μ → ο → Option μ) : μ → List ο → Option μ
  | m, [] => some m
  | m, op :: ops => (runs m op).bind fun m' => runsAll runs m' ops

/-- The control can run to its end. -/
def Runs (runs : μ → ο → Option μ) (m : μ) (control : List ο) : Prop :=
  (runsAll runs m control).isSome

section

variable {runs : μ → ο → Option μ} {m m' : μ} {op : ο} {ops rest : List ο}

@[simp] theorem runsAll_cons :
    runsAll runs m (op :: ops) = (runs m op).bind fun m' => runsAll runs m' ops := rfl

theorem runsAll_append :
    runsAll runs m (ops ++ rest) = (runsAll runs m ops).bind fun m' => runsAll runs m' rest := by
  induction ops generalizing m with
  | nil => rfl
  | cons op ops ih =>
    rw [List.cons_append, runsAll_cons, runsAll_cons, Option.bind_assoc]
    simp only [ih]

/-- Operations that all leave the mode as it is. -/
theorem runsAll_keeps (h : ∀ op ∈ ops, runs m op = some m) : runsAll runs m ops = some m := by
  induction ops with
  | nil => rfl
  | cons op ops ih =>
    rw [runsAll_cons, h op (.head _)]
    exact ih fun op hop => h op (.tail _ hop)

theorem runsAll_map {f : ι → ο} (h : ∀ i, runs m (f i) = some m) (is : List ι) :
    runsAll runs m (is.map f) = some m := by
  apply runsAll_keeps
  intro op hop
  obtain ⟨i, _, rfl⟩ := List.mem_map.mp hop
  exact h i

theorem runsAll_flatMap {f : ι → List ο} (h : ∀ i, runsAll runs m (f i) = some m) (is : List ι) :
    runsAll runs m (is.flatMap f) = some m := by
  induction is with
  | nil => rfl
  | cons i is ih =>
    rw [List.flatMap_cons, runsAll_append, h i]
    exact ih

theorem Runs.head (h : Runs runs m (op :: rest)) :
    ∃ m', runs m op = some m' ∧ Runs runs m' rest := by
  unfold Runs at h
  rw [runsAll_cons] at h
  cases hop : runs m op with
  | none =>
    rw [hop] at h
    cases h
  | some m' =>
    rw [hop] at h
    exact ⟨m', rfl, h⟩

/-- **Expansion**: operations that lead to a mode from which the rest runs. -/
theorem Runs.expand (h : runsAll runs m ops = some m') (hrest : Runs runs m' rest) :
    Runs runs m (ops ++ rest) := by
  unfold Runs
  rw [runsAll_append, h]
  exact hrest

end

end Kimojio
