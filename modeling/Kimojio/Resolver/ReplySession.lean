import Kimojio.Resolver.ReplyDecode

/-!
# Kimojio.Resolver.ReplySession

`ResolveHostnameReply.drive` over a whole session: any number of calls on one
decoder, each with a visitor of its own, any of whose calls may suspend the
decode.

`Reference` says what a text has to report: for JSON text the reading of its
tree by `Kimojio.Resolver.ReplySchema`, for other text the reading of any tree
that starts with the tokens before the fault. What a decoder still has to
report is `ResolveHostnameReply.pending`; a `drive` call reports a first part
of it and leaves the rest, or reports all of it and the verdict.
-/

namespace Kimojio.Resolver

open Json Rfc8259
open Reading (Simulates)

/-! ## items and verdicts -/

/-- The items among the effects, in order. -/
def itemsOf (effects : List Effect) : List Item :=
  effects.filterMap fun
    | .item i => some i
    | _ => none

/-- The first violation among the effects. -/
def firstViolation (effects : List Effect) : Option ReplyErrorKind :=
  effects.findSome? fun
    | .violation kind => some kind
    | _ => none

/-- The verdict on a reading: its first violation, or what is decided at its
end. -/
def judge (effects : List Effect) (atEnd : Except ReplyErrorKind Unit) :
    Except ReplyErrorKind Unit :=
  match firstViolation effects with
  | some kind => .error kind
  | none => atEnd

/-- At the end of the reply, an `error` member or an `addresses` array must
have occurred. -/
def requireAnswer (answered : Bool) : Except ReplyErrorKind Unit :=
  if answered then .ok () else .error .missingMember

@[simp] theorem itemsOf_append (es es' : List Effect) :
    itemsOf (es ++ es') = itemsOf es ++ itemsOf es' := List.filterMap_append

theorem firstViolation_append (es es' : List Effect) :
    firstViolation (es ++ es') = (firstViolation es).or (firstViolation es') :=
  List.findSome?_append

theorem judge_append (h : firstViolation es = none) (es' : List Effect)
    (atEnd : Except ReplyErrorKind Unit) : judge (es ++ es') atEnd = judge es' atEnd := by
  rw [judge, judge, firstViolation_append, h, Option.none_or]

theorem judge_of_some (h : firstViolation es = some kind) (atEnd : Except ReplyErrorKind Unit) :
    judge es atEnd = .error kind := by
  rw [judge, h]

/-- What a text has to report: its items, and the verdict. -/
inductive Reference (input : Str) : List Item → Except ReplyErrorKind Unit → Prop where
  /-- JSON text is read as its tree. -/
  | json (h : JsonText v input) : Reference input (itemsOf (readReply v).events)
        (judge (readReply v).events (requireAnswer ((readReply v).result.any Seen.answered)))
  /-- Other text is read up to the fault of the tokenizer, which is the verdict
  unless the schema is violated before it. -/
  | malformed (hn : ∀ v, ¬ JsonText v input) (h : (uninterrupted input).1 <+: tokensOf v) :
      Reference input (itemsOf ((readReply v).events.take (uninterrupted input).1.length))
        (judge ((readReply v).events.take (uninterrupted input).1.length) (.error .json))

/-! ## sessions -/

/-- The visitor `v`, with a log of the items it received. -/
def ReplyVisitor.logged (v : ReplyVisitor σ Out) : ReplyVisitor (σ × List Item) Out :=
  ReplyVisitor.ofCall fun i s => ((v.call i s.1).1, ((v.call i s.1).2, s.2 ++ [i]))

/-- How a `drive` call of the decoder ended. -/
inductive ReplyOutcome where
  | suspended
  /-- `Ok(None)` -/
  | completed
  | rejected (e : ReplyError)
  deriving DecidableEq, Repr

/-- How a call with this result ended. -/
def ReplyOutcome.ofResult : Except ReplyError (Option Out) → ReplyOutcome
  | .ok (some _) => .suspended
  | .ok none => .completed
  | .error e => .rejected e

/-- The verdict that a call gives, unless it suspends. -/
def ReplyOutcome.verdict : ReplyOutcome → Option (Except ReplyErrorKind Unit)
  | .suspended => none
  | .completed => some (.ok ())
  | .rejected e => some (.error e.kind)

/-- One `drive` call of the decoder: a visitor of any type, in any state. -/
structure ReplyCall where
  σ : Type
  Out : Type
  visitor : ReplyVisitor σ Out
  state : σ

/-- What a `drive` call shows: the items it reported, how it ended, and the
decoder afterwards. -/
structure ReplyShown where
  items : List Item
  outcome : ReplyOutcome
  reply : ResolveHostnameReply

/-- Makes one `drive` call. -/
def ReplyCall.observe (c : ReplyCall) (r : ResolveHostnameReply) : ReplyShown :=
  let x := r.drive c.visitor.logged (c.state, [])
  ⟨x.2.2.2, ReplyOutcome.ofResult x.1, x.2.1⟩

/-- Makes `drive` calls one after the other. -/
def replySession : List ReplyCall → ResolveHostnameReply → List ReplyShown
  | [], _ => []
  | c :: cs, r => c.observe r :: replySession cs (c.observe r).reply

/-- The calls of a session report `items` and then `verdict`. -/
inductive Reports (verdict : Except ReplyErrorKind Unit) : List Item → List ReplyShown → Prop where
  | nil : Reports verdict items []
  /-- A call that suspends reports the next items; the calls after it go on
  behind them. -/
  | suspended : s.outcome = .suspended → s.items ≠ [] → Reports verdict items rest →
      Reports verdict (s.items ++ items) (s :: rest)
  /-- The first call that does not suspend reports the rest and the verdict;
  the calls after it return `Ok(None)` without an item. -/
  | ended : s.outcome.verdict = some verdict →
      (∀ s' ∈ rest, s'.outcome = .completed ∧ s'.items = []) → Reports verdict s.items (s :: rest)

/-! ## the items that a visitor takes -/

/-- The visitor takes these items; with an output, the last of them stops the
decode. -/
inductive ReplyVisitor.Takes (v : ReplyVisitor σ Out) :
    σ → List Item → Option Out → σ → Prop where
  | nil : v.Takes s [] none s
  | stop : v.call i s = (some out, s') → v.Takes s [i] (some out) s'
  | cons : v.call i s = (none, s₁) → v.Takes s₁ items out s' → v.Takes s (i :: items) out s'

theorem ReplyVisitor.call_logged (v : ReplyVisitor σ Out) (i : Item) (s : σ × List Item) :
    (v.logged.call i s).2.2 = s.2 ++ [i] := by
  simp [ReplyVisitor.logged]

/-- The log grows by the items. -/
theorem ReplyVisitor.Takes.log_eq {v : ReplyVisitor σ Out}
    (h : v.logged.Takes s items out s') : s'.2 = s.2 ++ items := by
  induction h with
  | nil => exact (List.append_nil _).symm
  | @stop i s _ _ hcall =>
    have hlog := v.call_logged i s
    rwa [hcall] at hlog
  | @cons i s _ _ _ _ hcall _ ih =>
    have hlog := v.call_logged i s
    rw [hcall] at hlog
    rw [ih, hlog, List.append_assoc]
    rfl

/-! ## what one run of the tokenizer makes of the decoder -/

/-- The violation that an answer of the bridge stands for. -/
def violationIn : Option (Except ReplyErrorKind Out × List Token) → Option ReplyErrorKind
  | some (.error kind, _) => some kind
  | _ => none

/-- The output of the visitor that it stands for. -/
def outputIn : Option (Except ReplyErrorKind Out × List Token) → Option Out
  | some (.ok out, _) => some out
  | _ => none

theorem Decoder.step_of_violation {d d' : Decoder} (h : d.read tok = (.violation kind, d')) :
    d.step tok = ⟨[.violation kind], none⟩ := by
  simp only [step, h]

theorem Decoder.step_of_accepted {d d' : Decoder} (he : ∀ kind, e ≠ .violation kind)
    (h : d.read tok = (e, d')) : d.step tok = ⟨[e], some d'⟩ := by
  simp only [step, h]

/-- The tokens `toks` led from `d` to `d'`, past these items, unless `kind`
was violated. -/
structure Heard (d : Decoder) (toks : List Token) (d' : Decoder) (items : List Item)
    (kind : Option ReplyErrorKind) : Prop where
  result_eq : (d.reads toks).result = if kind.isSome then none else some d'
  items_eq : itemsOf (d.reads toks).events = items
  violation_eq : firstViolation (d.reads toks).events = kind

namespace Heard

theorem violation (h : d.read tok = (.violation kind, d')) :
    Heard d [tok] d' [] (some kind) := by
  have hstep : d.reads [tok] = ⟨[.violation kind], none⟩ := by
    rw [Decoder.reads_cons, Decoder.step_of_violation h]
    rfl
  constructor <;> rw [hstep] <;> rfl

/-- A token that the schema accepts, and those after it. -/
theorem cons (he : ∀ kind, e ≠ .violation kind) (h : d.read tok = (e, d₁))
    (hs : Heard d₁ toks d' items kind) : Heard d (tok :: toks) d' (itemsOf [e] ++ items) kind := by
  have hstep : d.reads (tok :: toks) = ⟨[e] ++ (d₁.reads toks).events, (d₁.reads toks).result⟩ := by
    rw [Decoder.reads_cons, Decoder.step_of_accepted he h]
    rfl
  have hnone : firstViolation [e] = none := by
    cases e with
    | violation kind => exact absurd rfl (he kind)
    | quiet | item => rfl
  constructor <;> rw [hstep]
  · exact hs.result_eq
  · rw [itemsOf_append, hs.items_eq]
  · rw [firstViolation_append, hnone, Option.none_or, hs.violation_eq]

theorem nil (d : Decoder) : Heard d [] d [] none := ⟨rfl, rfl, rfl⟩

end Heard

/-- The visitor takes the items that the tokens stand for, and the bridge
answers with the first violation. -/
theorem feed_bridge (h : (bridge v).feed toks (d, s) = (r, d', s'))
    (hr : ∀ out rest, r = some (out, rest) → rest = []) :
    ∃ items, Heard d toks d' items (violationIn r) ∧ v.Takes s items (outputIn r) s' := by
  induction toks generalizing d s with
  | nil =>
    cases h
    exact ⟨[], .nil _, .nil⟩
  | cons tok toks ih =>
    have hcall := bridge_call v tok d s
    rcases hread : d.read tok with ⟨e, d₁⟩
    rw [hread] at hcall
    cases e with
    | quiet =>
      rw [Visitor.feed_none hcall] at h
      obtain ⟨items, hs, htakes⟩ := ih h
      exact ⟨items, .cons (by simp) hread hs, htakes⟩
    | violation kind =>
      rw [Visitor.feed_some hcall] at h
      cases h
      obtain rfl : toks = [] := hr _ _ rfl
      exact ⟨[], .violation hread, .nil⟩
    | item i =>
      rcases hout : v.call i s with ⟨_ | out, s₁⟩
      · simp only [Effect.answer, hout] at hcall
        rw [Visitor.feed_none hcall] at h
        obtain ⟨items, hs, htakes⟩ := ih h
        exact ⟨i :: items, .cons (by simp) hread hs, .cons hout htakes⟩
      · simp only [Effect.answer, hout] at hcall
        rw [Visitor.feed_some hcall] at h
        cases h
        obtain rfl : toks = [] := hr _ _ rfl
        exact ⟨[i], .cons (by simp) hread (.nil _), .stop hout⟩

/-! ## one call -/

/-- Whether the reply has said what it must say. -/
def Decoder.answered (d : Decoder) : Bool := d.seenError || d.seenAddresses

namespace ResolveHostnameReply

/-- The verdict of the tokenizer and of the end of the reply. -/
def atEnd (result : Option Decoder) : Except Error Unit → Except ReplyErrorKind Unit
  | .error _ => .error .json
  | .ok _ => requireAnswer (result.any Decoder.answered)

/-- What a decoder that has not finished still has to report. -/
def pending (r : ResolveHostnameReply) : List Item × Except ReplyErrorKind Unit :=
  let x := r.decoder.reads r.tokenizer.trace.1
  (itemsOf x.events, judge x.events (atEnd x.result r.tokenizer.trace.2))

/-- The items of a run, then what is still to come. -/
theorem pending_of_heard {r : ResolveHostnameReply} (hsteps : Tokenizer.Steps r.tokenizer toks t)
    (h : Heard r.decoder toks d items none) :
    r.pending = (items ++ (pending ⟨t, d, false⟩).1, (pending ⟨t, d, false⟩).2) := by
  have hres : (r.decoder.reads toks).result = some d := h.result_eq
  simp only [pending, hsteps.trace_eq, emit_fst, emit_snd, Decoder.reads_append,
    Reading.bind_eq_of_some hres, itemsOf_append, h.items_eq, judge_append h.violation_eq]

/-- After a violation there is nothing to come. -/
theorem pending_of_violation {r : ResolveHostnameReply}
    (hsteps : Tokenizer.Steps r.tokenizer toks t) (h : Heard r.decoder toks d items (some kind)) :
    r.pending = (items, .error kind) := by
  have hres : (r.decoder.reads toks).result = none := h.result_eq
  simp only [pending, hsteps.trace_eq, emit_fst, emit_snd, Decoder.reads_append,
    Reading.bind_eq_of_none hres, h.items_eq, judge_of_some h.violation_eq]

theorem pending_of_trace (h : t.trace = ([], o)) (d : Decoder) :
    pending ⟨t, d, false⟩ = ([], atEnd (some d) o) := by
  simp only [pending, h]
  rfl

/-- A decoder that may go on. -/
structure Live (r : ResolveHostnameReply) : Prop where
  finished_eq : r.finished = false
  failure_eq : r.tokenizer.failure = none

end ResolveHostnameReply

open ResolveHostnameReply (Live pending)

theorem ReplyCall.observe_of_finished (c : ReplyCall) (h : r.finished = true) :
    c.observe r = ⟨[], .completed, r⟩ := by
  simp [ReplyCall.observe, ResolveHostnameReply.drive, h, ReplyOutcome.ofResult]

/-- A call on a decoder that may go on: the visitor stops the decode and leaves
the rest, or it takes all that is pending and the call gives the verdict. -/
theorem ResolveHostnameReply.Live.drive (h : Live r) (v : ReplyVisitor σ Out)
    (hdrive : r.drive v s = (result, r', s')) :
    ∃ items,
      (∃ out, result = .ok (some out) ∧ v.Takes s items (some out) s' ∧ Live r' ∧
        r.pending = (items ++ r'.pending.1, r'.pending.2)) ∨
      ∃ verdict, v.Takes s items none s' ∧ r'.finished = true ∧
        (ReplyOutcome.ofResult result).verdict = some verdict ∧ r.pending = (items, verdict) := by
  obtain ⟨toks, t₁, hsteps, hends⟩ := Tokenizer.run_cases (bridge v) r.tokenizer (r.decoder, s)
  have hf₁ : t₁.failure = none := hsteps.failure_eq.trans h.failure_eq
  simp only [ResolveHostnameReply.drive, h.finished_eq, Tokenizer.drive, h.failure_eq] at hdrive
  rcases hrun : Tokenizer.run (bridge v) r.tokenizer (r.decoder, s) with ⟨_, t', d', s₁⟩
  rw [hrun] at hends hdrive
  cases hends with
  | @suspended output _ hfeed =>
    obtain ⟨items, hheard, htakes⟩ := feed_bridge hfeed (by simp)
    cases output with
    | ok out =>
      cases hdrive
      exact ⟨items, .inl ⟨out, rfl, htakes, ⟨rfl, hf₁⟩, pending_of_heard hsteps hheard⟩⟩
    | error kind =>
      cases hdrive
      exact ⟨items, .inr ⟨_, htakes, rfl, rfl, pending_of_violation hsteps hheard⟩⟩
  | finished hfeed hstep =>
    obtain ⟨items, hheard, htakes⟩ := feed_bridge hfeed (by simp)
    rw [pending_of_heard hsteps hheard, pending_of_trace (Tokenizer.trace_finished hstep)]
    rw [List.append_nil, atEnd, Option.any_some, requireAnswer, Decoder.answered]
    by_cases ha : (d'.seenError || d'.seenAddresses) = true
    · simp only [if_pos ha] at hdrive ⊢
      cases hdrive
      exact ⟨items, .inr ⟨_, htakes, rfl, rfl, rfl⟩⟩
    · simp only [if_neg ha] at hdrive ⊢
      cases hdrive
      exact ⟨items, .inr ⟨_, htakes, rfl, rfl, rfl⟩⟩
  | failed hfeed hstep =>
    obtain ⟨items, hheard, htakes⟩ := feed_bridge hfeed (by simp)
    rw [pending_of_heard hsteps hheard, pending_of_trace (Tokenizer.trace_failed hstep)]
    cases hdrive
    exact ⟨items, .inr ⟨_, htakes, rfl, rfl, by rw [List.append_nil]; rfl⟩⟩

/-- A call on a decoder that may go on suspends and leaves the rest, or it
ends the decode. -/
theorem ResolveHostnameReply.Live.observe (h : Live r) (c : ReplyCall) :
    ((c.observe r).outcome = .suspended ∧ (c.observe r).items ≠ [] ∧ Live (c.observe r).reply ∧
        r.pending = ((c.observe r).items ++ (c.observe r).reply.pending.1,
          (c.observe r).reply.pending.2)) ∨
      ((c.observe r).reply.finished = true ∧
        ∃ verdict, (c.observe r).outcome.verdict = some verdict ∧
          r.pending = ((c.observe r).items, verdict)) := by
  rcases hdrive : r.drive c.visitor.logged (c.state, []) with ⟨result, r', s', log⟩
  have hobserve : c.observe r = ⟨log, .ofResult result, r'⟩ := by rw [ReplyCall.observe, hdrive]
  rw [hobserve]
  obtain ⟨items, ⟨out, rfl, htakes, hlive, hpending⟩ | ⟨verdict, htakes, hfin, hverdict, hpending⟩⟩
    := h.drive c.visitor.logged hdrive
  · obtain rfl : log = items := htakes.log_eq
    have hne : log ≠ [] := by
      rintro rfl
      cases htakes
    exact .inl ⟨rfl, hne, hlive, hpending⟩
  · obtain rfl : log = items := htakes.log_eq
    exact .inr ⟨hfin, verdict, hverdict, hpending⟩

/-- After the end, every call returns `Ok(None)` and reports nothing. -/
theorem replySession_of_finished (h : r.finished = true) (calls : List ReplyCall) :
    ∀ s ∈ replySession calls r, s.outcome = .completed ∧ s.items = [] := by
  induction calls with
  | nil => intro s hs; cases hs
  | cons c calls ih =>
    rw [replySession, c.observe_of_finished h]
    exact List.forall_mem_cons.mpr ⟨⟨rfl, rfl⟩, ih⟩

/-- Every session reports what was pending. -/
theorem ResolveHostnameReply.Live.reports (h : Live r) (calls : List ReplyCall) :
    Reports r.pending.2 r.pending.1 (replySession calls r) := by
  induction calls generalizing r with
  | nil => exact .nil
  | cons c calls ih =>
    obtain ⟨hsus, hne, hlive, hpending⟩ | ⟨hfin, verdict, hverdict, hpending⟩ := h.observe c
    · rw [hpending]
      exact .suspended hsus hne (ih hlive)
    · rw [hpending]
      exact .ended hverdict (replySession_of_finished hfin calls)

/-! ## nesting -/

namespace Decoder

@[simp] theorem depth_endSkippedValue (d : Decoder) : d.endSkippedValue.depth = d.depth := by
  unfold endSkippedValue
  split <;> rfl

@[simp] theorem depth_closeSkipped (d : Decoder) : d.closeSkipped.depth = d.depth :=
  depth_endSkippedValue _

theorem depth_discardScalar (d : Decoder) : d.discardScalar.2.depth = d.depth := by
  unfold discardScalar
  split
  · exact d.depth_endSkippedValue
  · rfl

theorem depth_member (d : Decoder) (is : Str → Bool) : (d.member is).2.depth = d.depth := by
  unfold member
  split <;> first | rfl | (split <;> first | rfl | (split <;> first | rfl | (split <;> rfl)))

theorem depth_pushOctet {d d' : Decoder} (h : d.pushOctet text = .ok d') : d'.depth = d.depth := by
  rw [pushOctet_eq] at h
  split at h
  · cases ho : octetValue text with
    | error kind => rw [ho] at h; cases h
    | ok octet => rw [ho] at h; cases h; rfl
  · cases h

theorem depth_number (d : Decoder) (text : Str) : (d.number text).2.depth = d.depth := by
  unfold number
  split
  · split <;> rfl
  · split <;> rfl
  · split
    · next d' hd => exact depth_pushOctet hd
    · rfl
  · exact d.depth_endSkippedValue
  · rfl

/-- An accepted opening is one level deeper, within the limit. -/
theorem depth_opened {d : Decoder} {f : Decoder → Option ReplyErrorKind × Decoder}
    (hf : ∀ d', (f d').2.depth = d'.depth)
    (hr : r = match d.openContainer with | (some kind, d) => (some kind, d) | (none, d) => f d)
    (h : r.1 = none) : r.2.depth = d.depth + 1 ∧ d.depth + 1 ≤ maxDepth := by
  subst hr
  by_cases hd : d.depth + 1 > maxDepth
  · have hopen : d.openContainer = (some .depthExceeded, { d with depth := d.depth + 1 }) := by
      simp [openContainer, hd]
    rw [hopen] at h
    cases h
  · have hopen : d.openContainer = (none, { d with depth := d.depth + 1 }) := by
      simp [openContainer, hd]
    rw [hopen]
    exact ⟨hf _, by omega⟩

theorem depth_arrayEnd (d : Decoder) : d.arrayEnd.2.depth = d.depth - 1 := by
  unfold arrayEnd
  dsimp only
  split <;> simp [close]

theorem read_snd (d : Decoder) (tok : Token) :
    (d.read tok).2 = ((bridge itemVisitor).call tok (d, ())).2.1 := by
  rw [read]
  rcases (bridge itemVisitor).call tok (d, ()) with ⟨_ | _ | _, d', _⟩ <;> rfl

theorem depth_read (d : Decoder) (h : opened [tok] = 0) :
    (d.read tok).2.depth = d.depth - closed [tok] := by
  rw [read_snd]
  cases tok with
  | objectStart | arrayStart => cases h
  | arrayEnd => exact d.depth_arrayEnd
  | key | escapeKey => exact d.depth_member _
  | boolean _ | null => exact d.depth_discardScalar
  | objectEnd =>
    simp only [Visitor.call, bridge]
    split <;> first | rfl | exact depth_closeSkipped _ | (split <;> rfl)
  | string value | escapeString value =>
    simp only [Visitor.call, bridge]
    split <;> first | rfl | exact depth_endSkippedValue _
  | number text =>
    simp only [Visitor.call, bridge]
    split
    · exact d.depth_number text
    · split <;> rfl

/-- The machine counts at least the containers that are open, and no more than
the limit. -/
theorem depth_step {d d' : Decoder} (h : (d.step tok).result = some d') (hd : d.depth ≤ maxDepth) :
    d.depth + opened [tok] ≤ closed [tok] + d'.depth ∧ d'.depth ≤ maxDepth := by
  have hquiet : ∀ kind, (d.read tok).1 ≠ .violation kind := by
    intro kind hk
    simp [step, hk] at h
  have hd' : (d.read tok).2 = d' := by
    revert h
    simp only [step]
    exact Option.some.inj
  have hopen : ∀ r : Option ReplyErrorKind × Decoder,
      (bridge itemVisitor).call tok (d, ()) = reject r () → r.1 = none ∧ r.2 = d' := by
    intro r hr
    rw [← hd', read_snd, hr]
    rcases r with ⟨_ | kind, d₁⟩
    · exact ⟨rfl, rfl⟩
    · exact absurd (by rw [read, hr]; rfl) (hquiet kind)
  by_cases ho : opened [tok] = 0
  · have hdepth := d.depth_read ho
    rw [hd'] at hdepth
    omega
  · cases tok with
    | objectStart =>
      obtain ⟨hnone, heq⟩ := hopen _ rfl
      have hdepth := depth_opened (r := d.objectStart) (fun _ => by split <;> rfl) rfl hnone
      rw [heq] at hdepth
      exact ⟨by simp [opened, closed]; omega, by omega⟩
    | arrayStart =>
      obtain ⟨hnone, heq⟩ := hopen _ rfl
      have hdepth := depth_opened (r := d.arrayStart) (fun _ => by split <;> rfl) rfl hnone
      rw [heq] at hdepth
      exact ⟨by simp [opened, closed]; omega, by omega⟩
    | _ => exact absurd rfl ho

/-- Tokens that nest deeper than the limit violate the schema. -/
theorem depth_reads {d d' : Decoder} (h : (d.reads toks).result = some d')
    (hd : d.depth ≤ maxDepth) :
    d.depth + opened toks ≤ closed toks + d'.depth ∧ d'.depth ≤ maxDepth := by
  induction toks generalizing d with
  | nil =>
    cases h
    exact ⟨Nat.le_of_eq (Nat.add_comm _ _), hd⟩
  | cons tok toks ih =>
    rw [reads_cons, Reading.result_bind] at h
    obtain ⟨d₁, h₁, h₂⟩ := Option.bind_eq_some_iff.mp h
    obtain ⟨hle₁, hd₁⟩ := depth_step h₁ hd
    obtain ⟨hle₂, hd₂⟩ := ih h₂ hd₁
    rw [← List.singleton_append, opened_append, closed_append]
    exact ⟨by omega, hd₂⟩

end Decoder

/-! ## the reference -/

/-- A reading stops exactly at a violation. -/
theorem Decoder.isSome_firstViolation (d : Decoder) (toks : List Token) :
    (firstViolation (d.reads toks).events).isSome = (d.reads toks).result.isNone := by
  induction toks generalizing d with
  | nil => rfl
  | cons tok toks ih =>
    rcases hread : d.read tok with ⟨e, d₁⟩
    cases e with
    | violation kind =>
      rw [reads_cons, step_of_violation hread]
      rfl
    | quiet | item =>
      rw [reads_cons, step_of_accepted (by simp) hread]
      exact ih d₁

/-- Text that nests too deep for the tokenizer violates the schema before. -/
theorem reads_of_deep (h : JsonText v input) (hd : Json.maxDepth < v.depth) :
    (Decoder.new.reads (Tokenizer.new input).trace.1).result = none := by
  obtain ⟨p, f, -, ht, hnest⟩ := stuck_jsonText h hd
  have htrace : (Tokenizer.new input).trace.1 = p := by
    rw [(Refines.new input).trace_eq, ht]
  rw [htrace]
  cases hres : (Decoder.new.reads p).result with
  | none => rfl
  | some d =>
    obtain ⟨hle, hd⟩ := Decoder.depth_reads hres (Nat.zero_le _)
    simp only [List.length_nil, Json.maxDepth, stackWords, maxDepth, Decoder.new] at hnest hle hd
    omega

/-- The reading of a tree and of the calls that begin it. -/
theorem readReply_take (h : toks <+: tokensOf v) :
    (Decoder.new.reads toks).events = (readReply v).events.take toks.length := by
  obtain ⟨rest, hrest⟩ := h
  rw [(sim_reply v).events_eq, ← hrest]
  exact Reading.OneEach.events_take (fun _ _ => rfl) toks rest _

theorem uninterrupted_fst (input : Str) :
    (uninterrupted input).1 = (Tokenizer.new input).trace.1 := by
  rw [uninterrupted_eq]

/-- The reading of a tree stops exactly at a violation. -/
theorem isSome_firstViolation_readReply (v : Value) :
    (firstViolation (readReply v).events).isSome = (readReply v).result.isNone := by
  have hsim := sim_reply v
  have hres : (readReply v).result.isNone = (Decoder.new.reads (tokensOf v)).result.isNone := by
    have hrel := hsim.result_rel
    generalize (readReply v).result = x at hrel
    generalize (Decoder.new.reads (tokensOf v)).result = y at hrel
    cases hrel <;> rfl
  rw [hsim.events_eq, hres, Decoder.isSome_firstViolation]

/-- The reading of JSON text is that of its tree, to the end. -/
theorem reads_of_jsonText (h : JsonText v input) :
    (Decoder.new.reads (Tokenizer.new input).trace.1).events = (readReply v).events ∧
      ((Tokenizer.new input).trace = (tokensOf v, .ok ()) ∨ (readReply v).result = none) := by
  by_cases hd : v.depth ≤ Json.maxDepth
  · have htrace := Tokenizer.trace_new h hd
    rw [htrace]
    exact ⟨(sim_reply v).events_eq.symm, .inl rfl⟩
  · have hnone := reads_of_deep h (Nat.lt_of_not_le hd)
    have hevents : (Decoder.new.reads (Tokenizer.new input).trace.1).events =
        (readReply v).events := by
      obtain ⟨rest, hrest⟩ := Tokenizer.prefix_of_jsonText h
      rw [(sim_reply v).events_eq, ← hrest, Decoder.reads_append, Reading.bind_eq_of_none hnone]
    refine ⟨hevents, .inr (Option.isNone_iff_eq_none.mp ?_)⟩
    rw [← isSome_firstViolation_readReply, ← hevents, Decoder.isSome_firstViolation, hnone]
    rfl

/-- The two sides agree on whether the reply has answered. -/
theorem answered_reads (v : Value) : (Decoder.new.reads (tokensOf v)).result.any Decoder.answered =
      (readReply v).result.any Seen.answered := by
  have hrel := (sim_reply v).result_rel
  generalize (readReply v).result = x at hrel
  generalize (Decoder.new.reads (tokensOf v)).result = y at hrel
  cases hrel with
  | none => rfl
  | some hat => simp [Decoder.answered, Seen.answered, hat.error_eq, hat.addresses_eq]

/-- What is pending at the start is what the text has to report. -/
theorem Reference.pending_new (h : Reference input items verdict) :
    (ResolveHostnameReply.new input).pending = (items, verdict) := by
  rw [ResolveHostnameReply.pending, ResolveHostnameReply.new]
  cases h with
  | @json v hv =>
    obtain ⟨hevents, htrace | hnone⟩ := reads_of_jsonText hv
    · rw [hevents, htrace, ResolveHostnameReply.atEnd, answered_reads]
    · have hviolation := isSome_firstViolation_readReply v
      rw [hnone] at hviolation
      obtain ⟨kind, hkind⟩ := Option.isSome_iff_exists.mp hviolation
      rw [hevents, judge_of_some hkind, judge_of_some hkind]
  | @malformed v hn hv =>
    rw [uninterrupted_fst] at hv ⊢
    rw [readReply_take hv]
    cases hend : (Tokenizer.new input).trace.2 with
    | error e => rfl
    | ok _ =>
      obtain ⟨v', hv', -⟩ := (Tokenizer.trace_new_ok_iff input).mp hend
      exact absurd hv' (hn v')

theorem exists_reference (input : Str) : ∃ items verdict, Reference input items verdict := by
  by_cases h : ∃ v, JsonText v input
  · obtain ⟨v, hv⟩ := h
    exact ⟨_, _, .json hv⟩
  · obtain ⟨v, hv⟩ := Tokenizer.exists_tree input
    rw [← uninterrupted_fst] at hv
    exact ⟨_, _, .malformed (fun v hv => h ⟨v, hv⟩) hv⟩

/-- The strings and numbers of a document that the tokenizer accepts. -/
theorem valid_of_trace (h : (Tokenizer.new input).trace = (tokensOf v, .ok ())) : Valid v := by
  intro tok htok
  have hmem : tok ∈ (Tokenizer.new input).trace.1 := by rw [h]; exact htok
  rw [(Refines.new input).trace_eq] at hmem
  exact Cfg.valid_of_mem_trace hmem

theorem judge_readReply_ok (v : Value) :
    judge (readReply v).events (requireAnswer ((readReply v).result.any Seen.answered)) = .ok () ↔
      ∃ seen, (readReply v).result = some seen ∧ seen.answered = true := by
  have hviolation := isSome_firstViolation_readReply v
  cases hres : (readReply v).result with
  | none =>
    rw [hres] at hviolation
    obtain ⟨kind, hkind⟩ := Option.isSome_iff_exists.mp hviolation
    rw [judge_of_some hkind]
    simp
  | some seen =>
    rw [hres] at hviolation
    rw [judge, Option.isNone_iff_eq_none.mp (Option.isSome_eq_false_iff.mp hviolation),
      Option.any_some, requireAnswer]
    cases h : seen.answered <;> simp [h]

theorem reference_ok_iff (input : Str) : (∃ items, Reference input items (.ok ())) ↔
      ∃ v, JsonText v input ∧ v.depth ≤ maxDepth ∧ Conforms v ∧ Answers v := by
  constructor
  · rintro ⟨items, h⟩
    generalize hverdict : (Except.ok () : Except ReplyErrorKind Unit) = verdict at h
    cases h with
    | malformed =>
      rw [judge] at hverdict
      split at hverdict <;> cases hverdict
    | @json v hv =>
      obtain ⟨seen, hres, hseen⟩ := (judge_readReply_ok v).mp hverdict.symm
      obtain ⟨-, htrace | hnone⟩ := reads_of_jsonText hv
      · have hvalid := valid_of_trace htrace
        obtain ⟨hconforms, hdepth⟩ := (isSome_readReply hvalid).mp (by rw [hres]; rfl)
        exact ⟨v, hv, hdepth, hconforms, (readReply_records hvalid hres).mp hseen⟩
      · rw [hnone] at hres
        cases hres
  · rintro ⟨v, hv, hdepth, hconforms, hanswers⟩
    have hvalid := valid_of_trace (Tokenizer.trace_new hv (Nat.le_trans hdepth (by decide)))
    obtain ⟨seen, hres⟩ :=
      Option.isSome_iff_exists.mp ((isSome_readReply hvalid).mpr ⟨hconforms, hdepth⟩)
    have hok := (judge_readReply_ok v).mpr
      ⟨seen, hres, (readReply_records hvalid hres).mpr hanswers⟩
    have href := Reference.json hv
    rw [hok] at href
    exact ⟨_, href⟩

/-- **The decoder reads the reply.** Every text has a reading by the schema;
every session on it, however its visitors suspend, reports the items of that
reading in order and then its verdict, once, and after that `Ok(None)`. A text
is accepted exactly if it is JSON that conforms to the schema, nests at most
`maxDepth` containers, and says what a reply must say. -/
theorem replySession_reports (input : Str) : (∃ items verdict, Reference input items verdict) ∧
      (∀ items verdict, Reference input items verdict → ∀ calls,
        Reports verdict items (replySession calls (.new input))) ∧
      ((∃ items, Reference input items (.ok ())) ↔
        ∃ v, JsonText v input ∧ v.depth ≤ maxDepth ∧ Conforms v ∧ Answers v) := by
  refine ⟨exists_reference input, fun items verdict h calls => ?_, reference_ok_iff input⟩
  have hlive : Live (.new input) := ⟨rfl, rfl⟩
  have hreports := hlive.reports calls
  rw [h.pending_new] at hreports
  exact hreports

end Kimojio.Resolver
