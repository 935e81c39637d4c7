/-!
# Kimojio.Transition

Systems that move by labelled steps. The label of a step says everything
that is not determined by the state: who moves, and what the environment
answers.

A safety property of every run is an invariant: it holds at the start, and
every allowed step keeps it (`Reaches.invariant`). A single run is a list of
labels, and is evaluated by `run`.
-/

namespace Kimojio

/-- A system that moves by labelled steps. A label that is not enabled in a
state leads nowhere. -/
structure System (σ : Type u) (α : Type v) where
  start : σ
  next : σ → α → Option σ

namespace System

variable {S : System σ α} {allowed : σ → α → Prop}

/-- The states that are reached by steps that are all `allowed`. -/
inductive Reaches (S : System σ α) (allowed : σ → α → Prop) : σ → Prop where
  | start : Reaches S allowed S.start
  | next : Reaches S allowed s → allowed s a → S.next s a = some s' → Reaches S allowed s'

/-- **Invariants**: what holds at the start and is kept by every allowed step
holds in every state reached. -/
theorem Reaches.invariant {P : σ → Prop} (hstart : P S.start)
    (hnext : ∀ s a s', P s → allowed s a → S.next s a = some s' → P s')
    (h : S.Reaches allowed s) : P s := by
  induction h with
  | start => exact hstart
  | next _ ha hs ih => exact hnext _ _ _ ih ha hs

/-- The state after a list of labels. -/
def run (S : System σ α) : σ → List α → Option σ
  | s, [] => some s
  | s, a :: as => (S.next s a).bind fun s' => S.run s' as

theorem Reaches.run_any (h : S.Reaches (fun _ _ => True) s) (hrun : S.run s as = some s') :
    S.Reaches (fun _ _ => True) s' := by
  induction as generalizing s with
  | nil =>
    cases hrun
    exact h
  | cons a as ih =>
    obtain ⟨s₁, hs₁, hrest⟩ := Option.bind_eq_some_iff.mp hrun
    exact ih (h.next trivial hs₁) hrest

theorem reaches_run (hrun : S.run S.start as = some s) : S.Reaches (fun _ _ => True) s :=
  Reaches.start.run_any hrun

/-- The system in which only the steps that pass a test are enabled. -/
def restrict (S : System σ α) (test : σ → α → Bool) : System σ α where
  start := S.start
  next s a := if test s a then S.next s a else none

/-- A run in which every step passes the test. -/
theorem Reaches.run (h : S.Reaches (fun s a => test s a = true) s)
    (hrun : (S.restrict test).run s as = some s') : S.Reaches (fun s a => test s a = true) s' := by
  induction as generalizing s with
  | nil =>
    cases hrun
    exact h
  | cons a as ih =>
    obtain ⟨s₁, hs₁, hrest⟩ := Option.bind_eq_some_iff.mp hrun
    obtain ⟨ha, hs₁⟩ := Option.ite_none_right_eq_some.mp hs₁
    exact ih (h.next ha hs₁) hrest

/-- A run that is evaluated, with a test of the state in which it ends. -/
theorem exists_run (h : (S.run S.start as).any p = true) :
    ∃ s, S.Reaches (fun _ _ => True) s ∧ p s = true := by
  obtain ⟨s, hrun, hs⟩ := (Option.any_eq_true _ _).mp h
  exact ⟨s, reaches_run hrun, hs⟩

theorem exists_restrict_run (h : ((S.restrict test).run S.start as).any p = true) :
    ∃ s, S.Reaches (fun s a => test s a = true) s ∧ p s = true := by
  obtain ⟨s, hrun, hs⟩ := (Option.any_eq_true _ _).mp h
  exact ⟨s, Reaches.start.run hrun, hs⟩

/-- **Simulation**: where related states answer every label that passes the
test alike, runs of the same labels end in related states. -/
theorem run_rel {T : System τ α}
    (hnext : ∀ s t a, R s t → test s a = true → Option.Rel R (S.next s a) (T.next t a))
    (h : R s t) (hrun : (S.restrict test).run s as = some s') :
    ∃ t', T.run t as = some t' ∧ R s' t' := by
  induction as generalizing s t with
  | nil =>
    cases hrun
    exact ⟨t, rfl, h⟩
  | cons a as ih =>
    obtain ⟨s₁, hs₁, hrest⟩ := Option.bind_eq_some_iff.mp hrun
    obtain ⟨ha, hs₁⟩ := Option.ite_none_right_eq_some.mp hs₁
    have hrel := hnext s t a h ha
    rw [hs₁] at hrel
    generalize ht : T.next t a = t₁ at hrel
    cases hrel with
    | some hrel =>
      obtain ⟨t', ht', hR⟩ := ih hrel hrest
      refine ⟨t', ?_, hR⟩
      rw [run, ht]
      exact ht'

/-- The system with a record of what has happened. -/
def recording (S : System σ α) (record : ρ) (note : σ → α → ρ → ρ) : System (σ × ρ) α where
  start := (S.start, record)
  next s a := (S.next s.1 a).map fun s' => (s', note s.1 a s.2)

theorem Reaches.unrecorded (h : (S.recording record note).Reaches (fun s a => allowed s.1 a) s) :
    S.Reaches allowed s.1 := by
  induction h with
  | start => exact .start
  | next _ ha hs ih =>
    obtain ⟨_, hnext, rfl⟩ := Option.map_eq_some_iff.mp hs
    exact ih.next ha hnext

end System

end Kimojio
