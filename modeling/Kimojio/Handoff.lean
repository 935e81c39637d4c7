/-!
# Kimojio.Handoff

Tokens handed over through a queue.

The members of `waiting` each want a token. Some of them stand in `queue`;
the others have been called, and will ask for a token when they come to run.
Nobody is forgotten as long as the tokens on hand do not exceed the members
that have been called (`Handoff`).

An entry of the queue may be stale: its owner is not waiting any more, so
that calling it hands nothing over. Every stale entry is therefore counted
as if it were one more token.
-/

namespace Kimojio

variable [DecidableEq α]

/-- The waiting members that have been called: they are not in the queue. -/
def called (queue waiting : List α) : Nat :=
  waiting.countP fun w => decide (w ∉ queue)

/-- The entries of the queue of which the owner is not waiting. -/
def stale (queue waiting : List α) : Nat :=
  queue.countP fun w => decide (w ∉ waiting)

/-- If a member still stands in the queue, then every one of the `tokens` is
on its way to a member that has been called, and so is one token more for
each stale entry. -/
def Handoff (queue waiting : List α) (tokens : Nat) : Prop :=
  (∃ w ∈ waiting, w ∈ queue) → tokens + stale queue waiting ≤ called queue waiting

theorem called_cons (queue waiting : List α) (w : α) :
    called queue (w :: waiting) = called queue waiting + if w ∈ queue then 0 else 1 := by
  unfold called
  by_cases h : w ∈ queue <;> simp [h]

theorem stale_cons (queue waiting : List α) (x : α) :
    stale (x :: queue) waiting = stale queue waiting + if x ∈ waiting then 0 else 1 :=
  called_cons waiting queue x

/-- Who leaves the front of the queue has been called. -/
theorem called_pop {x : α} (hx : x ∉ queue) (hw : waiting.Nodup) :
    called queue waiting = called (x :: queue) waiting + if x ∈ waiting then 1 else 0 := by
  induction waiting with
  | nil => rfl
  | cons w waiting ih =>
    obtain ⟨hnot, hnodup⟩ := List.nodup_cons.mp hw
    rw [called_cons, called_cons, ih hnodup]
    by_cases h : w = x
    · subst h
      simp [hx, hnot]
    · simp only [List.mem_cons, h, Ne.symm h, false_or]
      omega

/-- A member that stops waiting leaves a stale entry behind if it stands in
the queue. -/
theorem stale_leave {w : α} (hw : w ∉ waiting) (hq : queue.Nodup) :
    stale queue waiting = stale queue (w :: waiting) + if w ∈ queue then 1 else 0 :=
  -- the two counts are one, with the lists exchanged
  called_pop hw hq

theorem stale_eq_zero {queue waiting : List α} (h : ∀ x ∈ queue, x ∈ waiting) :
    stale queue waiting = 0 := by
  unfold stale
  rw [List.countP_eq_zero]
  intro x hx
  simp [h x hx]

namespace Handoff

variable {queue waiting : List α} {k : Nat}

theorem of_empty : Handoff [] waiting k := by
  rintro ⟨w, -, hw⟩
  cases hw

/-- Without tokens there is nothing to hand over. -/
theorem of_clean (h : ∀ x ∈ queue, x ∈ waiting) : Handoff queue waiting 0 := by
  intro _
  rw [stale_eq_zero h]
  omega

theorem mono (h : Handoff queue waiting k) (hj : j ≤ k) : Handoff queue waiting j := by
  intro hex
  have := h hex
  omega

/-- A new token is handed to the front of the queue. -/
theorem pop (h : Handoff (x :: queue) waiting k) (hq : (x :: queue).Nodup) (hw : waiting.Nodup) :
    Handoff queue waiting (k + 1) := by
  rintro ⟨w, hmem, hqueue⟩
  have hold := h ⟨w, hmem, List.mem_cons_of_mem _ hqueue⟩
  rw [stale_cons] at hold
  rw [called_pop (List.nodup_cons.mp hq).1 hw]
  split at hold <;> simp_all <;> omega

/-- A member takes a token and stops waiting. -/
theorem leave (h : Handoff queue (w :: waiting) (k + 1)) (hq : queue.Nodup)
    (hw : (w :: waiting).Nodup) : Handoff queue waiting k := by
  rintro ⟨v, hmem, hqueue⟩
  have hold := h ⟨v, List.mem_cons_of_mem _ hmem, hqueue⟩
  rw [called_cons] at hold
  rw [stale_leave (List.nodup_cons.mp hw).1 hq]
  split at hold <;> simp_all <;> omega

theorem perm (h : Handoff queue waiting k) (hp : waiting.Perm waiting') :
    Handoff queue waiting' k := by
  have hcalled : called queue waiting' = called queue waiting := hp.symm.countP_eq _
  have hstale : stale queue waiting' = stale queue waiting := by
    exact List.countP_congr fun x _ => by simp [hp.mem_iff]
  rintro ⟨w, hmem, hqueue⟩
  rw [hcalled, hstale]
  exact h ⟨w, hp.mem_iff.mpr hmem, hqueue⟩

end Handoff

end Kimojio
