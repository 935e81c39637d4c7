import Kimojio.Json.Machine

/-!
# Kimojio.Json.Trace

What a scan reports: the visitor calls still to come from a tokenizer, in
order, and how the scan ends after them.

`Tokenizer.trace` is that sequence for the code and `Cfg.trace` for the
machine of `Kimojio.Json.Machine`; `Refines.trace_eq` says they are the same.
`run_cases` is the one fact about `run` that later modules use: a run makes
some steps, passes their calls to the visitor one by one, and stops at the
first call that suspends, at the end of the document, or at an error.
-/

namespace Kimojio.Json

open Str

/-- The calls in front of a trace. -/
def emit (toks : List Token) (r : List Token × α) : List Token × α := (toks ++ r.1, r.2)

@[simp] theorem emit_nil (r : List Token × α) : emit [] r = r := rfl

@[simp] theorem emit_emit (toks toks' : List Token) (r : List Token × α) :
    emit toks (emit toks' r) = emit (toks ++ toks') r := by
  simp [emit]

@[simp] theorem emit_fst (toks : List Token) (r : List Token × α) :
    (emit toks r).1 = toks ++ r.1 := rfl

@[simp] theorem emit_snd (toks : List Token) (r : List Token × α) : (emit toks r).2 = r.2 := rfl

/-- The containers that calls open. -/
def opened (toks : List Token) : Nat :=
  toks.countP fun tok => tok = .objectStart || tok = .arrayStart

/-- The containers that calls close. -/
def closed (toks : List Token) : Nat :=
  toks.countP fun tok => tok = .objectEnd || tok = .arrayEnd

@[simp] theorem opened_append (toks toks' : List Token) :
    opened (toks ++ toks') = opened toks + opened toks' := List.countP_append

@[simp] theorem closed_append (toks toks' : List Token) :
    closed (toks ++ toks') = closed toks + closed toks' := List.countP_append

/-! ## the trace of the machine -/

/-- The move left the loop running. -/
def Move.Continues : Move → Prop
  | .silent | .token _ => True
  | _ => False

namespace Cfg

theorem length_step_lt {c c' : Cfg} (h : c.step = (m, c')) (hm : m.Continues) :
    c'.rest.length < c.rest.length := by
  have hmoves := c.step_moves
  rw [h] at hmoves
  cases hmoves with
  | finished | failed => exact hm.elim
  | scalar _ _ hr | arrayStart _ _ hr | objectStart _ _ hr | key _ _ hr | arrayEnd _ hr
  | objectEnd _ hr | arrayComma _ hr | objectComma _ hr => exact hr.2

/-- The calls a scan makes from `c` on, and how it ends. -/
def trace (c : Cfg) : List Token × Except Fault Unit :=
  match _h : c.step with
  | (.finished, _) => ([], .ok ())
  | (.failed f, _) => ([], .error f)
  | (.silent, c') => c'.trace
  | (.token tok, c') => emit [tok] c'.trace
termination_by c.rest.length
decreasing_by all_goals exact length_step_lt _h trivial

theorem trace_finished {c c' : Cfg} (h : c.step = (.finished, c')) : c.trace = ([], .ok ()) := by
  rw [trace]
  split <;> simp_all

theorem trace_failed {c c' : Cfg} (h : c.step = (.failed f, c')) : c.trace = ([], .error f) := by
  rw [trace]
  split <;> simp_all

theorem trace_silent {c c' : Cfg} (h : c.step = (.silent, c')) : c.trace = c'.trace := by
  rw [trace]
  split <;> simp_all

theorem trace_token {c c' : Cfg} (h : c.step = (.token tok, c')) :
    c.trace = emit [tok] c'.trace := by
  rw [trace]
  split <;> simp_all

/-- Every call of a scan passes text of the grammar. -/
theorem valid_of_mem_trace {c : Cfg} (h : tok ∈ c.trace.1) : tok.Valid := by
  fun_induction trace c with
  | case1 | case2 => cases h
  | case3 _ _ _ ih => exact ih h
  | case4 c tok' c' hs ih =>
    have hmoves := c.step_moves
    rw [hs] at hmoves
    rw [emit_fst, List.mem_append, List.mem_singleton] at h
    rcases h with rfl | h
    · exact hmoves.valid
    · exact ih h

end Cfg

/-! ## the trace of the code -/

namespace Tokenizer

/-- The visitor calls a scan makes from `t` on, and how it ends. -/
def trace (t : Tokenizer) : List Token × Except Error Unit :=
  match _h : t.step with
  | (.finished, _) => ([], .ok ())
  | (.failed e, _) => ([], .error e)
  | (.silent, t') => t'.trace
  | (.token tok, t') => emit [tok] t'.trace
termination_by t.input.len - t.offset
decreasing_by all_goals exact step_decreases _h trivial

theorem trace_finished {t t' : Tokenizer} (h : t.step = (.finished, t')) :
    t.trace = ([], .ok ()) := by
  rw [trace]
  split <;> simp_all

theorem trace_failed {t t' : Tokenizer} (h : t.step = (.failed e, t')) :
    t.trace = ([], .error e) := by
  rw [trace]
  split <;> simp_all

theorem trace_silent {t t' : Tokenizer} (h : t.step = (.silent, t')) : t.trace = t'.trace := by
  rw [trace]
  split <;> simp_all

theorem trace_token {t t' : Tokenizer} (h : t.step = (.token tok, t')) :
    t.trace = emit [tok] t'.trace := by
  rw [trace]
  split <;> simp_all

/-! ### one iteration of `run` -/

theorem run_failed (h : t.step = (.failed e, t')) (v : Visitor σ Out) (s : σ) :
    run v t s = (.error e, t', s) := by
  rw [run]
  split <;> simp_all

/-- `t'` is reached from `t` in iterations that make the calls `toks`. -/
inductive Steps : Tokenizer → List Token → Tokenizer → Prop where
  | refl : Steps t [] t
  | silent : t.step = (.silent, t') → Steps t' toks t'' → Steps t toks t''
  | token : t.step = (.token tok, t') → Steps t' toks t'' → Steps t (tok :: toks) t''

/-- What has been reported, then what is still to come. -/
theorem Steps.trace_eq (h : Steps t toks t') : t.trace = emit toks t'.trace := by
  induction h with
  | refl => rfl
  | silent hs _ ih => rw [trace_silent hs, ih]
  | token hs _ ih => rw [trace_token hs, ih]; rfl

theorem failure_of_continues {t t' : Tokenizer} (h : t.step = (s, t')) (hs : s.Continues) :
    t'.failure = t.failure := by
  have hstep : t.step.1.Continues := by rw [h]; exact hs
  have hfail := (ahead_step hstep).1.failure_eq
  rw [h] at hfail
  exact hfail

/-- Only the end of the input finishes a document. -/
theorem scanValue_ne_finished (t : Tokenizer) (byte : UInt8) :
    (t.scanValue byte).1 ≠ .finished := by
  fun_cases scanValue t byte with
  | case1 | case2 => fun_cases openContainer <;> simp
  | case5 | case6 | case7 => fun_cases scanWord <;> simp
  | _ => simp

theorem scanKey_ne_finished (t : Tokenizer) (byte : UInt8) : (t.scanKey byte).1 ≠ .finished := by
  fun_cases scanKey t byte <;> simp

theorem dispatch_ne_finished (t : Tokenizer) (byte : UInt8) : (t.dispatch byte).1 ≠ .finished := by
  fun_cases dispatch t byte with
  | case2 | case3 | case4 | case6 => exact scanValue_ne_finished t byte
  | case8 | case9 => exact scanKey_ne_finished t byte
  | _ => simp

theorem failure_of_finished {t t' : Tokenizer} (h : t.step = (.finished, t')) :
    t'.failure = t.failure := by
  revert h
  fun_cases step t with
  | case1 t₁ hs =>
    intro h
    cases h
    simp only [skipWhitespace, Prod.mk.injEq] at hs
    rw [← hs.2]
  | case2 => intro h; cases h
  | case3 byte t₁ hs =>
    intro h
    exact absurd (congrArg Prod.fst h) (dispatch_ne_finished t₁ byte)

theorem Steps.failure_eq (h : Steps t toks t') : t'.failure = t.failure := by
  induction h with
  | refl => rfl
  | silent hs _ ih | token hs _ ih => rw [ih, failure_of_continues hs trivial]

end Tokenizer

/-- Passes calls to the visitor until one suspends: its value, with the calls
that were not made, and the visitor afterwards. -/
def Visitor.feed (v : Visitor σ Out) : List Token → σ → Option (Out × List Token) × σ
  | [], s => (none, s)
  | tok :: toks, s =>
    match v.call tok s with
    | (some output, s') => (some (output, toks), s')
    | (none, s') => v.feed toks s'

theorem Visitor.feed_none {v : Visitor σ Out} (h : v.call tok s = (none, s')) (toks : List Token) :
    v.feed (tok :: toks) s = v.feed toks s' := by
  rw [Visitor.feed, h]

theorem Visitor.feed_some {v : Visitor σ Out} (h : v.call tok s = (some output, s'))
    (toks : List Token) : v.feed (tok :: toks) s = (some (output, toks), s') := by
  rw [Visitor.feed, h]

/-- The calls after the one that suspends are not made. -/
theorem Visitor.feed_append_some {v : Visitor σ Out}
    (h : v.feed toks s = (some (output, rest), s')) :
    v.feed (toks ++ more) s = (some (output, rest ++ more), s') := by
  fun_induction Visitor.feed v toks s with
  | case1 => cases h
  | case2 tok toks s output' s₁ hcall =>
    cases h
    exact Visitor.feed_some hcall _
  | case3 tok toks s s₁ hcall ih =>
    rw [List.cons_append, Visitor.feed_none hcall]
    exact ih h

/-- How a run ends, from the tokenizer its last iteration starts from or
leaves behind. -/
inductive Ends (v : Visitor σ Out) (s : σ) (toks : List Token) (t : Tokenizer) :
    Except Error (Option Out) × Tokenizer × σ → Prop where
  /-- The last call suspended the scan. -/
  | suspended : v.feed toks s = (some (output, []), s') → Ends v s toks t (.ok (some output), t, s')
  /-- The document is complete, and no call suspended. -/
  | finished : v.feed toks s = (none, s') → t.step = (.finished, t') →
      Ends v s toks t (.ok none, t', s')
  /-- The input violates the grammar, and no call suspended. -/
  | failed : v.feed toks s = (none, s') → t.step = (.failed e, t') →
      Ends v s toks t (.error e, t', s')

namespace Tokenizer

/-- **Runs**: a run makes steps, passes their calls to the visitor, and stops
at the first that suspends, at the end of the document, or at an error. -/
theorem run_cases (v : Visitor σ Out) (t : Tokenizer) (s : σ) :
    ∃ toks t₁, Steps t toks t₁ ∧ Ends v s toks t₁ (run v t s) := by
  fun_induction run v t s with
  | case1 t s t' h => exact ⟨[], t, .refl, .finished rfl h⟩
  | case2 t s e t' h => exact ⟨[], t, .refl, .failed rfl h⟩
  | case3 t s t' h ih =>
    obtain ⟨toks, t₁, hs, he⟩ := ih
    exact ⟨toks, t₁, .silent h hs, he⟩
  | case4 t s tok t' h output s' hc =>
    exact ⟨[tok], t', .token h .refl, .suspended (Visitor.feed_some hc [])⟩
  | case5 t s tok t' h s' hc ih =>
    obtain ⟨toks, t₁, hs, he⟩ := ih
    refine ⟨tok :: toks, t₁, .token h hs, ?_⟩
    revert he
    generalize run v t' s' = r
    intro he
    cases he with
    | suspended hf => exact .suspended (by rw [Visitor.feed_none hc, hf])
    | finished hf hstep => exact .finished (by rw [Visitor.feed_none hc, hf]) hstep
    | failed hf hstep => exact .failed (by rw [Visitor.feed_none hc, hf]) hstep

/-- A run in which no call of the trace suspends makes them all. -/
theorem run_of_feed (h : v.feed t.trace.1 s = (none, s')) :
    (run v t s).1 = t.trace.2.map (fun _ => none) ∧ (run v t s).2.2 = s' := by
  obtain ⟨toks, t₁, hsteps, hends⟩ := run_cases v t s
  rw [hsteps.trace_eq, emit_fst] at h
  rw [hsteps.trace_eq]
  revert hends
  generalize run v t s = r
  intro hends
  cases hends with
  | suspended hf =>
    rw [Visitor.feed_append_some hf] at h
    cases h
  | finished hf hstep =>
    rw [trace_finished hstep, List.append_nil, hf] at h
    cases h
    simp [trace_finished hstep, Except.map]
  | failed hf hstep =>
    rw [trace_failed hstep, List.append_nil, hf] at h
    cases h
    simp [trace_failed hstep, Except.map]

/-- The same for `drive`, on a tokenizer that has not failed. -/
theorem drive_of_feed (ht : t.failure = none) (h : v.feed t.trace.1 s = (none, s')) :
    (drive v t s).1 = t.trace.2.map (fun _ => none) ∧ (drive v t s).2.2 = s' := by
  have hrun := run_of_feed h
  rw [drive, ht]
  revert hrun
  obtain ⟨r, t', s'⟩ := run v t s
  intro hrun
  cases r with
  | error | ok => exact hrun

end Tokenizer

/-! ## visitors that never suspend -/

/-- No call suspends the scan. -/
def Visitor.NeverSuspends (v : Visitor σ Out) : Prop := ∀ tok s, (v.call tok s).1 = none

/-- The visitor after a sequence of calls. -/
def Visitor.visit (v : Visitor σ Out) (toks : List Token) (s : σ) : σ :=
  toks.foldl (fun s tok => (v.call tok s).2) s

theorem Visitor.NeverSuspends.feed_eq {v : Visitor σ Out} (hv : v.NeverSuspends)
    (toks : List Token) (s : σ) : v.feed toks s = (none, v.visit toks s) := by
  induction toks generalizing s with
  | nil => rfl
  | cons tok toks ih =>
    have hcall : v.call tok s = (none, (v.call tok s).2) := Prod.ext (hv tok s) rfl
    rw [Visitor.feed_none hcall, ih]
    rfl

/-- A tokenizer that has not failed makes every call of the trace, if it is
never suspended. -/
theorem Tokenizer.drive_of_neverSuspends (hv : v.NeverSuspends)
    (ht : t.failure = none) (s : σ) :
    (drive v t s).1 = t.trace.2.map (fun _ => none) ∧ (drive v t s).2.2 = v.visit t.trace.1 s :=
  drive_of_feed ht (hv.feed_eq t.trace.1 s)

/-! ## the two levels report the same -/

namespace Refines

/-- The code and the machine make the same calls and end alike. -/
theorem trace_eq (h : Refines input t c) :
    t.trace = (c.trace.1, c.trace.2.mapError (·.error input)) := by
  fun_induction Cfg.trace c generalizing t with
  | case1 c c' hs =>
    obtain ⟨hstep, -⟩ := h.step
    rw [hs] at hstep
    exact Tokenizer.trace_finished (Prod.ext hstep rfl)
  | case2 c f c' hs =>
    obtain ⟨hstep, -⟩ := h.step
    rw [hs] at hstep
    exact Tokenizer.trace_failed (Prod.ext hstep rfl)
  | case3 c c' hs ih =>
    obtain ⟨hstep, hr⟩ := h.step
    rw [hs] at hstep hr
    rw [Tokenizer.trace_silent (Prod.ext hstep rfl)]
    exact ih hr
  | case4 c tok c' hs ih =>
    obtain ⟨hstep, hr⟩ := h.step
    rw [hs] at hstep hr
    rw [Tokenizer.trace_token (Prod.ext hstep rfl), ih hr]
    rfl

end Refines

end Kimojio.Json
