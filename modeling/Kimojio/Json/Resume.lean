import Kimojio.Json.Grammar

/-!
# Kimojio.Json.Resume

Suspending and resuming a scan. A session is a sequence of `drive` calls on
one tokenizer, each with a visitor of its own, any of whose calls may suspend
the scan.

What the tokenizer still has to report is `Tokenizer.scan`: its trace, or the
recorded failure. `Between.drive` says that a `drive` call reports a first
part of it and leaves the rest, whatever the visitor does, so that the calls
of a session, put together, are those of one uninterrupted scan. The cursor
and the depth between two calls are read off the configuration of
`Kimojio.Json.Machine` that the tokenizer is in.
-/

namespace Kimojio.Json

open Str

/-! ## logging the calls of a visitor -/

/-- The visitor `v`, with a log of the calls it received. -/
def Visitor.logged (v : Visitor σ Out) : Visitor (σ × List Token) Out :=
  Visitor.ofCall fun tok s => ((v.call tok s.1).1, ((v.call tok s.1).2, s.2 ++ [tok]))

theorem Visitor.call_logged (v : Visitor σ Out) (tok : Token) (s : σ) (log : List Token) :
    v.logged.call tok (s, log) = ((v.call tok s).1, ((v.call tok s).2, log ++ [tok])) := by
  simp [Visitor.logged]

/-- The log holds the calls that were passed on. -/
theorem Visitor.feed_logged {v : Visitor σ Out} (h : v.logged.feed toks s = (r, s')) :
    s'.2 ++ (r.map Prod.snd).getD [] = s.2 ++ toks := by
  induction toks generalizing s with
  | nil =>
    cases h
    simp
  | cons tok toks ih =>
    cases hc : v.logged.call tok s with
    | mk c s₁ =>
      have hlog : s₁.2 = s.2 ++ [tok] := by
        have := v.call_logged tok s.1 s.2
        rw [hc] at this
        rw [(Prod.mk.inj this).2]
      cases c with
      | some output =>
        rw [Visitor.feed_some hc] at h
        cases h
        simp [hlog]
      | none =>
        rw [Visitor.feed_none hc] at h
        rw [ih h, hlog]
        simp

namespace Tokenizer

/-! ## what is still to be reported -/

/-- What is still to be reported: the trace, or the recorded failure. -/
def scan (t : Tokenizer) : List Token × Except Error Unit :=
  match t.failure with
  | some e => ([], .error e)
  | none => t.trace

end Tokenizer

/-- The tokenizer is in a configuration of the machine, `seen` having been
reported so far. -/
structure Between (input : Str) (seen : List Token) (t : Tokenizer) (c : Cfg) : Prop where
  refines : Refines input t c
  wellFormed : c.WellFormed
  depth_eq : c.stack.length + closed seen = opened seen

/-- The calls of a move. -/
def Move.calls : Move → List Token
  | .token tok => [tok]
  | _ => []

/-- The calls of an iteration. -/
def Step.calls : Step → List Token
  | .token tok => [tok]
  | _ => []

theorem calls_toStep (m : Move) (input : Str) : (m.toStep input).calls = m.calls := by
  cases m <;> rfl

/-- The depth changes by what the calls open and close. -/
theorem Cfg.Moves.depth (h : Cfg.Moves c m c') (hc : c.WellFormed) :
    c'.stack.length + closed m.calls = c.stack.length + opened m.calls := by
  have htail : c.stack.head? ≠ none → c.stack.tail.length + 1 = c.stack.length := by
    cases c.stack <;> simp
  cases h with
  | finished | failed | arrayComma | objectComma | arrayStart | objectStart => rfl
  | @scalar r tok _ htok | @key r tok _ htok =>
    cases tok <;> first | exact htok.1.elim | rfl
  | arrayEnd hs | objectEnd hs =>
    refine htail ?_
    rcases hs with hs | hs <;> rw [Cfg.WellFormed, hs] at hc <;> simp [hc]

namespace Between

theorem new (input : Str) : Between input [] (Tokenizer.new input) ⟨.start, [], input⟩ where
  refines := .new input
  wellFormed := rfl
  depth_eq := rfl

section
variable (h : Between input seen t c)
include h

theorem step :
    Between input (seen ++ t.step.1.calls) t.step.2 c.step.2 ∧ c.step.2.rest <:+ c.rest := by
  have hmoves := c.step_moves
  refine ⟨⟨h.refines.step.2, hmoves.wellFormed h.wellFormed, ?_⟩, hmoves.suffix⟩
  have hdepth := hmoves.depth h.wellFormed
  have hseen := h.depth_eq
  rw [h.refines.step.1, calls_toStep, closed_append, opened_append]
  omega

theorem steps (hs : Tokenizer.Steps t toks t') :
    ∃ c', Between input (seen ++ toks) t' c' ∧ c'.rest <:+ c.rest := by
  induction hs generalizing seen c with
  | refl => exact ⟨c, by simpa using h, List.suffix_refl _⟩
  | silent hstep _ ih | token hstep _ ih =>
    obtain ⟨hnext, hsuf⟩ := h.step
    rw [hstep] at hnext
    obtain ⟨c', hc', hsuf'⟩ := ih hnext
    exact ⟨c', by simpa [Step.calls] using hc', hsuf'.trans hsuf⟩

theorem last (hs : t.step = (s, t')) (hcalls : s.calls = []) :
    Between input seen t' c.step.2 ∧ c.step.2.rest <:+ c.rest := by
  obtain ⟨hnext, hsuf⟩ := h.step
  rw [hs, hcalls, List.append_nil] at hnext
  exact ⟨hnext, hsuf⟩

/-- The recorded failure is not part of the configuration. -/
theorem fail (e : Error) :
    Between input seen { t with failure := some e } c :=
  ⟨⟨h.refines.input_eq, h.refines.suffix, h.refines.offset_eq, h.refines.state_eq,
    h.refines.depth_eq, h.refines.depth_le, h.refines.bits⟩, h.wellFormed, h.depth_eq⟩

/-- At the end of the document there is nothing left to report. -/
theorem trace_of_finished (hs : t.step = (.finished, t')) :
    t'.trace = ([], .ok ()) := by
  obtain ⟨hstep, href⟩ := h.refines.step
  rw [hs] at hstep href
  have hmove : c.step.1 = .finished := by
    cases hm : c.step.1 <;> rw [hm] at hstep <;> first | rfl | cases hstep
  have hmoves := c.step_moves
  have hend : c.step.2.trace = ([], .ok ()) := by
    rw [hmove] at hmoves
    revert hmoves
    generalize c.step.2 = c'
    intro hmoves
    cases hmoves with
    | finished hd =>
      have hdone : Cfg.step ⟨c.state, c.stack, []⟩ = (.finished, ⟨c.state, c.stack, []⟩) := by
        rw [hd]; rfl
      exact Cfg.trace_finished hdone
  rw [href.trace_eq, hend]
  rfl

end

end Between

/-! ## sessions -/

/-- How a `drive` call ended. -/
inductive Outcome where
  | suspended
  | finished
  | failed (e : Error)
  deriving DecidableEq, Repr

/-- How a call with this result ended. -/
def Outcome.ofResult : Except Error (Option Out) → Outcome
  | .ok (some _) => .suspended
  | .ok none => .finished
  | .error e => .failed e

/-- How a scan ends. -/
def Outcome.ofEnd : Except Error Unit → Outcome
  | .ok _ => .finished
  | .error e => .failed e

/-- One `drive` call: a visitor of any type, in any state. -/
structure DriveCall where
  σ : Type
  Out : Type
  visitor : Visitor σ Out
  state : σ

/-- What a `drive` call shows: the visitor calls it made, how it ended, and
the tokenizer afterwards. -/
structure Shown where
  calls : List Token
  outcome : Outcome
  tokenizer : Tokenizer

/-- Makes one `drive` call. -/
def DriveCall.observe (d : DriveCall) (t : Tokenizer) : Shown :=
  let r := Tokenizer.drive d.visitor.logged t (d.state, [])
  ⟨r.2.2.2, Outcome.ofResult r.1, r.2.1⟩

/-- Makes `drive` calls one after the other. -/
def session : List DriveCall → Tokenizer → List Shown
  | [], _ => []
  | d :: ds, t => d.observe t :: session ds (d.observe t).tokenizer

/-- A `drive` call on a tokenizer that has not failed. -/
theorem DriveCall.observe_eq (d : DriveCall) (hf : t.failure = none)
    {r : Except Error (Option d.Out)} {s' : d.σ × List Token}
    (hrun : Tokenizer.run d.visitor.logged t (d.state, []) = (r, t', s')) :
    d.observe t = ⟨s'.2, Outcome.ofResult r,
      match r with
      | .ok _ => t'
      | .error e => { t' with failure := some e }⟩ := by
  simp only [DriveCall.observe, Tokenizer.drive, hf, hrun]
  cases r <;> rfl

/-- **Resumption**: a `drive` call reports a first part of what is left, and
leaves the rest. -/
theorem Between.drive (h : Between input seen t c) (d : DriveCall) :
    ∃ c', Between input (seen ++ (d.observe t).calls) (d.observe t).tokenizer c' ∧
      c'.rest <:+ c.rest ∧
      t.scan = emit (d.observe t).calls (d.observe t).tokenizer.scan ∧
      ((d.observe t).outcome = .suspended ∧ (d.observe t).calls ≠ [] ∨
        ∃ o, (d.observe t).outcome = Outcome.ofEnd o ∧ (d.observe t).tokenizer.scan = ([], o)) := by
  cases hf : t.failure with
  | some e =>
    have hobs : d.observe t = ⟨[], .failed e, t⟩ := by
      simp [DriveCall.observe, Tokenizer.drive, hf, Outcome.ofResult]
    have hscan : t.scan = ([], .error e) := by simp [Tokenizer.scan, hf]
    rw [hobs]
    exact ⟨c, by simpa using h, List.suffix_refl _, rfl, .inr ⟨.error e, rfl, hscan⟩⟩
  | none =>
    have hscan : t.scan = t.trace := by simp [Tokenizer.scan, hf]
    obtain ⟨toks, t₁, hsteps, hends⟩ :=
      Tokenizer.run_cases d.visitor.logged t (d.state, [])
    obtain ⟨c₁, hc₁, hsuf⟩ := h.steps hsteps
    have hf₁ : t₁.failure = none := hsteps.failure_eq.trans hf
    rw [hscan, hsteps.trace_eq]
    cases hrun : Tokenizer.run d.visitor.logged t (d.state, []) with
    | mk r p =>
      obtain ⟨t', s'⟩ := p
      have hobs := d.observe_eq hf hrun
      rw [hrun] at hends
      rw [hobs]
      cases hends with
      | suspended hfeed =>
        have hlog : s'.2 = toks := by simpa using Visitor.feed_logged hfeed
        have hne : toks ≠ [] := by rintro rfl; cases hfeed
        simp only [hlog]
        refine ⟨c₁, hc₁, hsuf, ?_, .inl ⟨rfl, hne⟩⟩
        simp [Tokenizer.scan, hf₁]
      | finished hfeed hstep =>
        have hlog : s'.2 = toks := by simpa using Visitor.feed_logged hfeed
        obtain ⟨hlast, hsuf'⟩ := hc₁.last hstep rfl
        have hscan' : t'.scan = ([], .ok ()) := by
          rw [Tokenizer.scan, Tokenizer.failure_of_finished hstep, hf₁]
          exact hc₁.trace_of_finished hstep
        simp only [hlog]
        refine ⟨_, hlast, hsuf'.trans hsuf, ?_, .inr ⟨.ok (), rfl, hscan'⟩⟩
        rw [Tokenizer.trace_finished hstep, hscan']
      | failed hfeed hstep =>
        have hlog : s'.2 = toks := by simpa using Visitor.feed_logged hfeed
        obtain ⟨hlast, hsuf'⟩ := hc₁.last hstep rfl
        simp only [hlog]
        refine ⟨_, hlast.fail _, hsuf'.trans hsuf, ?_, .inr ⟨.error _, rfl, rfl⟩⟩
        rw [Tokenizer.trace_failed hstep]
        rfl

/-- The calls of the first `n` `drive` calls of a session. -/
def callsUpTo (shown : List Shown) (n : Nat) : List Token := (shown.take n).flatMap Shown.calls

/-- The uninterrupted scan of a document: the calls a visitor that never
suspends receives, and how the scan ends. -/
def uninterrupted (input : Str) : List Token × Outcome :=
  let r := Tokenizer.drive Tokenizer.recorder (Tokenizer.new input) []
  (r.2.2, Outcome.ofResult r.1)

theorem uninterrupted_eq (input : Str) : uninterrupted input =
      ((Tokenizer.new input).trace.1, Outcome.ofEnd (Tokenizer.new input).trace.2) := by
  have hvisit : ∀ (toks log : List Token), Tokenizer.recorder.visit toks log = log ++ toks := by
    intro toks
    induction toks with
    | nil => intro log; simp [Visitor.visit]
    | cons tok toks ih =>
      intro log
      have hcall : (Tokenizer.recorder.call tok log).2 = log ++ [tok] := by
        simp [Tokenizer.recorder]
      rw [Visitor.visit, List.foldl_cons, hcall, ← Visitor.visit, ih]
      simp
  obtain ⟨hres, hlog⟩ := Tokenizer.drive_of_neverSuspends Tokenizer.neverSuspends_recorder
    (show (Tokenizer.new input).failure = none from rfl) []
  simp only [uninterrupted, hres, hlog, hvisit, List.nil_append, Prod.mk.injEq, true_and]
  cases (Tokenizer.new input).trace.2 <;> rfl

/-- What holds after a `drive` call, when the calls of the session so far are
`calls`. -/
structure Resumes (input : Str) (calls : List Token) (shown : Shown) : Prop where
  /-- The cursor stays in the document. -/
  offset_le : shown.tokenizer.offset ≤ input.len
  /-- The depth is that of the containers reported so far. -/
  depth_eq : shown.tokenizer.depth + closed calls = opened calls
  /-- A suspended scan has made a first part of the calls. -/
  suspended : shown.outcome = .suspended → calls <+: (uninterrupted input).1
  /-- A scan that ended has made all the calls, and ends as the uninterrupted one. -/
  ended : shown.outcome ≠ .suspended → uninterrupted input = (calls, shown.outcome)

/-- What holds between an earlier `drive` call and a later one: the cursor
does not move back, and after the end nothing new is reported. -/
def Later (earlier later : Shown) : Prop :=
  earlier.tokenizer.offset ≤ later.tokenizer.offset ∧
    (earlier.outcome ≠ .suspended → later.outcome = earlier.outcome ∧ later.calls = [])

namespace Between

theorem offset_eq (h : Between input seen t c) : t.offset = offsetOf input c.rest :=
  h.refines.offset_eq

theorem offset_le_offset (h : Between input seen t c) (h' : Between input seen' t' c')
    (hs : c'.rest <:+ c.rest) : t.offset ≤ t'.offset := by
  obtain ⟨pre, hpre⟩ := hs
  have hlen := congrArg len hpre
  rw [len_append] at hlen
  rw [h.offset_eq, h'.offset_eq, offsetOf, offsetOf]
  omega

section
variable (h : Between input past t c)
include h

theorem resumes (htrace : (Tokenizer.new input).trace = emit past t.scan) (ds : List DriveCall)
    (hs : (session ds t)[i]? = some s) :
    Resumes input (past ++ callsUpTo (session ds t) (i + 1)) s := by
  induction ds generalizing past t c i with
  | nil => simp [session] at hs
  | cons d ds ih =>
    obtain ⟨c', hc', hsuf, hscan, hout⟩ := h.drive d
    have htrace' : (Tokenizer.new input).trace =
        emit (past ++ (d.observe t).calls) (d.observe t).tokenizer.scan := by
      rw [htrace, hscan, emit_emit]
    cases i with
    | zero =>
      obtain rfl : d.observe t = s := by simpa [session] using hs
      have hseen : callsUpTo (session (d :: ds) t) 1 = (d.observe t).calls := by
        simp [callsUpTo, session]
      rw [Nat.zero_add, hseen]
      refine ⟨?_, ?_, fun _ => ?_, fun hne => ?_⟩
      · rw [hc'.offset_eq, offsetOf]; omega
      · rw [hc'.refines.depth_eq, hc'.depth_eq]
      · rw [uninterrupted_eq, htrace', emit_fst]
        exact List.prefix_append _ _
      · obtain ⟨hsus, -⟩ | ⟨o, ho, hend⟩ := hout
        · exact absurd hsus hne
        · rw [uninterrupted_eq, htrace', hend, ho]
          simp
    | succ i =>
      have hnext := ih hc' htrace' (i := i) (by simpa [session] using hs)
      have hseen : callsUpTo (session (d :: ds) t) (i + 1 + 1) =
          (d.observe t).calls ++ callsUpTo (session ds (d.observe t).tokenizer) (i + 1) := by
        simp [callsUpTo, session]
      rw [hseen, ← List.append_assoc]
      exact hnext

/-- The cursor never moves back over a session. -/
theorem offset_le_session (ds : List DriveCall) :
    ∀ s ∈ session ds t, t.offset ≤ s.tokenizer.offset := by
  induction ds generalizing past t c with
  | nil => intro s hs; cases hs
  | cons d ds ih =>
    obtain ⟨c', hc', hsuf, -, -⟩ := h.drive d
    have hle := h.offset_le_offset hc' hsuf
    intro s hs
    rcases List.mem_cons.mp hs with rfl | hs
    · exact hle
    · exact Nat.le_trans hle (ih hc' s hs)

/-- After the end, every `drive` call ends the same way and makes no call. -/
theorem ended_session (hend : t.scan = ([], o)) (ds : List DriveCall) :
    ∀ s ∈ session ds t, s.outcome = Outcome.ofEnd o ∧ s.calls = [] := by
  induction ds generalizing past t c with
  | nil => intro s hs; cases hs
  | cons d ds ih =>
    obtain ⟨c', hc', -, hscan, hout⟩ := h.drive d
    rw [hend] at hscan
    obtain ⟨hcalls, hrest⟩ : (d.observe t).calls = [] ∧ (d.observe t).tokenizer.scan = ([], o) := by
      have h1 := congrArg Prod.fst hscan
      have h2 := congrArg Prod.snd hscan
      obtain ⟨hc, hs⟩ := List.append_eq_nil_iff.mp h1.symm
      exact ⟨hc, Prod.ext hs h2.symm⟩
    intro s hs
    rcases List.mem_cons.mp hs with rfl | hs
    · obtain ⟨-, hne⟩ | ⟨o', ho', hend'⟩ := hout
      · exact absurd hcalls hne
      · rw [hrest] at hend'
        cases hend'
        exact ⟨ho', hcalls⟩
    · exact ih hc' hrest s hs

theorem pairwise_session (ds : List DriveCall) :
    (session ds t).Pairwise Later := by
  induction ds generalizing past t c with
  | nil => exact .nil
  | cons d ds ih =>
    obtain ⟨c', hc', -, -, hout⟩ := h.drive d
    refine .cons (fun s hs => ⟨hc'.offset_le_session ds s hs, fun hne => ?_⟩) (ih hc')
    obtain ⟨hsus, -⟩ | ⟨o, ho, hend⟩ := hout
    · exact absurd hsus hne
    · rw [ho]
      exact hc'.ended_session hend ds s hs

end

end Between

/-- **Suspending and resuming changes nothing.** In every session, after
every `drive` call the cursor is in the document, the depth is that of the
containers reported so far, and the calls so far are a first part of those of
the uninterrupted scan; all of them, with the same ending, when the call did
not suspend. The cursor never moves back, and after the end every call ends
the same way without calling the visitor. -/
theorem session_resumes (input : Str) (ds : List DriveCall) :
    (∀ i s, (session ds (Tokenizer.new input))[i]? = some s →
        Resumes input (callsUpTo (session ds (Tokenizer.new input)) (i + 1)) s) ∧
      (session ds (Tokenizer.new input)).Pairwise Later := by
  have hstart := Between.new input
  refine ⟨fun i s hs => ?_, hstart.pairwise_session ds⟩
  exact hstart.resumes rfl ds hs

end Kimojio.Json
