/-!
# Kimojio.Coroutine

Functions that can be suspended, such as the bodies of async functions.

Such a function is given by what it does in one *round*: it goes on to
another place in its body, is suspended there, or returns. A poll runs it
round by round until it is suspended or returns (`resume`). In each round
the environment gives one answer; a poll with too few answers is not a poll
at all.

What a poll does follows from what each round does (`resume_rule`), and a
function that calls another one is suspended where its callee is
(`Resume.call`).
-/

namespace Kimojio

/-- How a round ends. `κ` are the places in the body of the function. -/
inductive Resume (κ : Type u) (ρ : Type v) where
  | goto (place : κ)
  | suspend (place : κ)
  | ret (value : ρ)
  deriving DecidableEq, Repr

namespace Resume

/-- A call: the callee has places of its own, and goes back to the caller
with its result. -/
def call (inside : κ → κ') (after : ρ → Resume κ' ρ') : Resume κ ρ → Resume κ' ρ'
  | .goto k => .goto (inside k)
  | .suspend k => .suspend (inside k)
  | .ret r => after r

theorem call_call (r : Resume κ ρ) :
    (r.call inside after).call inside' after' =
      r.call (fun k => inside' (inside k)) fun v => (after v).call inside' after' := by
  cases r <;> rfl

/-- A property of the end of a round, for each of the three ends. -/
def Ends (goes suspends : σ → κ → Prop) (returns : σ → ρ → Prop) : σ × Resume κ ρ → Prop
  | (s, .goto k) => goes s k
  | (s, .suspend k) => suspends s k
  | (s, .ret r) => returns s r

section

variable {goes goes' suspends suspends' : σ → κ → Prop} {returns returns' : σ → ρ → Prop}
  {r : σ × Resume κ ρ}

theorem Ends.imp (h : Ends goes suspends returns r) (hgoes : ∀ s k, goes s k → goes' s k)
    (hsuspends : ∀ s k, suspends s k → suspends' s k)
    (hreturns : ∀ s v, returns s v → returns' s v) : Ends goes' suspends' returns' r := by
  obtain ⟨s, k | k | v⟩ := r
  · exact hgoes s k h
  · exact hsuspends s k h
  · exact hreturns s v h

/-- The end of a call, with the state `s` that the callee has left. -/
theorem Ends.call {goes' suspends' : σ' → κ' → Prop} {returns' : σ' → ρ' → Prop} {r : Resume κ ρ}
    (h : Ends goes suspends returns (s, r)) (hgoes : ∀ k, goes s k → goes' s' (inside k))
    (hsuspends : ∀ k, suspends s k → suspends' s' (inside k))
    (hreturns : ∀ v, returns s v → Ends goes' suspends' returns' (s', after v)) :
    Ends goes' suspends' returns' (s', r.call inside after) := by
  cases r with
  | goto k => exact hgoes k h
  | suspend k => exact hsuspends k h
  | ret v => exact hreturns v h

theorem Ends.and (h : Ends goes suspends returns r) (h' : Ends goes' suspends' returns' r) :
    Ends (fun s k => goes s k ∧ goes' s k) (fun s k => suspends s k ∧ suspends' s k)
      (fun s v => returns s v ∧ returns' s v) r := by
  obtain ⟨s, k | k | v⟩ := r
  · exact ⟨h, h'⟩
  · exact ⟨h, h'⟩
  · exact ⟨h, h'⟩

end

end Resume

/-- One poll of a function at the place `k`. -/
def resume (round : τ → σ → κ → σ × Resume κ ρ) : List τ → σ → κ → Option (σ × (κ ⊕ ρ))
  | [], _, _ => none
  | t :: ts, s, k =>
    match round t s k with
    | (s, .goto k) => resume round ts s k
    | (s, .suspend k) => some (s, .inl k)
    | (s, .ret r) => some (s, .inr r)

/-- The two ends of a poll. -/
def Polled (suspends : σ → κ → Prop) (returns : σ → ρ → Prop) : σ × (κ ⊕ ρ) → Prop
  | (s, .inl k) => suspends s k
  | (s, .inr r) => returns s r

theorem Polled.imp (h : Polled suspends returns r) (hsuspends : ∀ s k, suspends s k → suspends' s k)
    (hreturns : ∀ s v, returns s v → returns' s v) : Polled suspends' returns' r := by
  obtain ⟨s, k | v⟩ := r
  · exact hsuspends s k h
  · exact hreturns s v h

section

variable {round : τ → σ → κ → σ × Resume κ ρ} {goes suspends : σ → κ → Prop}
  {returns : σ → ρ → Prop}

/-- **The rule of a poll**: `goes` is an invariant of the rounds, and gives
the end of the poll. -/
theorem resume_rule (hround : ∀ t s k, goes s k → Resume.Ends goes suspends returns (round t s k))
    (h : goes s k) (hr : resume round ts s k = some r) : Polled suspends returns r := by
  induction ts generalizing s k with
  | nil => cases hr
  | cons t ts ih =>
    have hends := hround t s k h
    unfold resume at hr
    generalize round t s k = e at hends hr
    obtain ⟨s', k' | k' | v⟩ := e
    · exact ih hends hr
    · cases hr
      exact hends
    · cases hr
      exact hends

/-- Enough answers: a poll ends if each round comes nearer to its end. -/
theorem resume_isSome {left : σ → κ → Nat} (hround : ∀ t s k, goes s k →
      Resume.Ends (fun s' k' => goes s' k' ∧ left s' k' < left s k)
        (fun _ _ => True) (fun _ _ => True) (round t s k)) (h : goes s k)
    (hlen : left s k < ts.length) : (resume round ts s k).isSome := by
  induction ts generalizing s k with
  | nil => exact absurd hlen (Nat.not_lt_zero _)
  | cons t ts ih =>
    have hends := hround t s k h
    unfold resume
    generalize round t s k = e at hends
    obtain ⟨s', k' | k' | v⟩ := e
    · have hlen : left s' k' < ts.length := by
        have := hends.2
        simp only [List.length_cons] at hlen
        omega
      exact ih hends.1 hlen
    · rfl
    · rfl

end

end Kimojio
