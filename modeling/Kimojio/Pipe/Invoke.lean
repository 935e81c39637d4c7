import Kimojio.Transition
import Kimojio.Table

/-!
# Kimojio.Pipe.Invoke

Calls of the closure of a channel through a pair of pipes.

The client writes its value and reads one response; the server runs a task
for every request and writes the responses in the order in which the tasks
finish. All frames carry the same id, so nothing but the order pairs a
response with its call: a call gets its own response if no response of an
earlier call is left when it starts.

A request and a response carry the number of their call, which the program
does not have.
-/

namespace Kimojio.Pipe

def zeroId : Nat := 0

structure Request (T : Type) where
  id : Nat
  call : Nat
  value : T

/-- A response is a result or a panic. -/
structure Response (R P : Type) where
  id : Nat
  call : Nat
  outcome : Except P R

/-- A call of `invoke`: its write and its read have a result when the kernel
has completed them, and a call that is being dropped waits for it. -/
inductive Phase (R P : Type) where
  | locking
  | sending (transferred : Option Bool)
  | droppingSend (transferred : Option Bool)
  | receiving (answer : Option (Option (Response R P)))
  | droppingRecv (answer : Option (Option (Response R P)))

/-- A task of the server, with the outcome of the closure. -/
structure ServerTask (T R P : Type) where
  request : Request T
  outcome : Option (Except P R)

/-- A channel with the values of all calls. A request without a value closes
it. `produced` has what the closure made of the value of a call, `returned`
what a call returned or raised. -/
structure Channel (T R P : Type) where
  values : List T
  current : Option (Nat × Phase R P)
  closed : Bool
  requests : List (Option (Request T))
  serving : Bool
  tasks : List (ServerTask T R P)
  responses : List (Response R P)
  produced : List (Nat × T × Except P R)
  returned : List (Nat × Except P R)

inductive InvokeLabel (T R P : Type) where
  | invoke (value : T)
  | locked (ok : Bool)
  | write (ok : Bool)
  | sent
  | read (ok : Bool)
  | received
  | drop
  | dropped
  | close (ok : Bool)
  | serve (ok : Bool)
  | produce (j : Nat) (outcome : Except P R)
  | respond (j : Nat) (ok : Bool)
  /-- A task of the server is aborted. -/
  | abort (j : Nat)

namespace Channel

variable {T R P : Type}

def new : Channel T R P := ⟨[], none, false, [], true, [], [], [], []⟩

def setPhase (ch : Channel T R P) (call : Nat) (phase : Phase R P) : Channel T R P :=
  { ch with current := some (call, phase) }

def finish (ch : Channel T R P) : Channel T R P := { ch with current := none }

/-- The kernel completes the write of a request. -/
def transfer (ch : Channel T R P) (call : Nat) (ok : Bool) : Channel T R P :=
  match ok, ch.values[call]? with
  | true, some value => { ch with requests := ch.requests ++ [some ⟨zeroId, call, value⟩] }
  | _, _ => ch

/-- The kernel completes the read of a response; there may be none, or the
read may fail. -/
def answer (ch : Channel T R P) (ok : Bool) : Option (Option (Response R P) × Channel T R P) :=
  match ok, ch.responses with
  | true, [] => none
  | true, r :: responses => some (some r, { ch with responses })
  | false, _ => some (none, ch)

/-- One step of `invoke` on the client. It has the client to itself, so that
the lock is free. -/
def client (ch : Channel T R P) (call : Nat) :
    Phase R P → InvokeLabel T R P → Option (Channel T R P)
  | .locking, .locked true => some (ch.setPhase call (.sending none))
  | .locking, .locked false | .locking, .drop => some ch.finish
  | .sending none, .write ok => some ((ch.transfer call ok).setPhase call (.sending (some ok)))
  | .sending none, .drop => some (ch.setPhase call (.droppingSend none))
  | .sending (some ok), .sent => some (if ok then ch.setPhase call (.receiving none) else ch.finish)
  | .sending (some ok), .drop => some (ch.setPhase call (.droppingSend (some ok)))
  | .droppingSend none, .write ok =>
    some ((ch.transfer call ok).setPhase call (.droppingSend (some ok)))
  | .droppingSend (some _), .dropped => some ch.finish
  | .receiving none, .read ok =>
    (ch.answer ok).map fun (answer, ch) => ch.setPhase call (.receiving (some answer))
  | .receiving none, .drop => some (ch.setPhase call (.droppingRecv none))
  | .receiving (some (some r)), .received =>
    some { ch.finish with returned := ch.returned ++ [(call, r.outcome)] }
  | .receiving (some none), .received => some ch.finish
  | .receiving (some answer), .drop => some (ch.setPhase call (.droppingRecv (some answer)))
  | .droppingRecv none, .read ok =>
    (ch.answer ok).map fun (answer, ch) => ch.setPhase call (.droppingRecv (some answer))
  | .droppingRecv (some _), .dropped => some ch.finish
  | _, _ => none

/-- One round of `invoke_loop`. -/
def serve (ch : Channel T R P) (ok : Bool) : Option (Channel T R P) :=
  if ch.serving then
    match ok, ch.requests with
    | false, _ => some { ch with serving := false }
    | true, [] => none
    | true, none :: requests => some { ch with requests, serving := false }
    | true, some request :: requests =>
      some { ch with requests, tasks := ch.tasks ++ [⟨request, none⟩] }
  else none

/-- The closure returns or panics. -/
def produce (ch : Channel T R P) (j : Nat) (outcome : Except P R) : Option (Channel T R P) :=
  match ch.tasks[j]? with
  | some ⟨request, none⟩ => some { ch with
      tasks := ch.tasks.set j ⟨request, some outcome⟩
      produced := ch.produced ++ [(request.call, request.value, outcome)] }
  | _ => none

/-- The task writes its response and ends. -/
def respond (ch : Channel T R P) (j : Nat) (ok : Bool) : Option (Channel T R P) :=
  match ch.tasks[j]? with
  | some ⟨request, some outcome⟩ =>
    let ch := { ch with tasks := ch.tasks.eraseIdx j }
    some (if ok then
      { ch with responses := ch.responses ++ [⟨request.id, request.call, outcome⟩] } else ch)
  | _ => none

def next (ch : Channel T R P) : InvokeLabel T R P → Option (Channel T R P)
  | .invoke value =>
    if ch.current.isNone && !ch.closed then
      some { ch with
        values := ch.values ++ [value], current := some (ch.values.length, .locking) }
    else none
  | .close ok =>
    if ch.current.isNone && !ch.closed then
      some { ch with closed := true, requests := ch.requests ++ if ok then [none] else [] }
    else none
  | .serve ok => ch.serve ok
  | .produce j outcome => ch.produce j outcome
  | .respond j ok => ch.respond j ok
  | .abort j => some { ch with tasks := ch.tasks.eraseIdx j }
  | label =>
    match ch.current with
    | some (call, phase) => ch.client call phase label
    | none => none

/-! ## What is left of a call -/

/-- The calls whose request or response is still there. -/
def outstanding (ch : Channel T R P) : List Nat :=
  ch.requests.filterMap (Option.map Request.call) ++ ch.tasks.map (·.request.call) ++
    ch.responses.map Response.call

/-- A call starts when nothing is left of the earlier ones. -/
def startsClean (ch : Channel T R P) : InvokeLabel T R P → Bool
  | .invoke _ => ch.outstanding.isEmpty
  | _ => true

/-- What the closure has made of the value of a call. -/
def Produced (ch : Channel T R P) (call : Nat) (outcome : Except P R) : Prop :=
  ∃ value, ch.values[call]? = some value ∧ (call, value, outcome) ∈ ch.produced

/-- Every request and response belongs to its call, and while a call runs
there are no others than its own. -/
structure Paired (ch : Channel T R P) : Prop where
  requests : ∀ r, some r ∈ ch.requests → r.id = zeroId ∧ ch.values[r.call]? = some r.value
  tasks : ∀ t ∈ ch.tasks, t.request.id = zeroId ∧
    ch.values[t.request.call]? = some t.request.value ∧
      ∀ outcome, t.outcome = some outcome → ch.Produced t.request.call outcome
  responses : ∀ r ∈ ch.responses, r.id = zeroId ∧ ch.Produced r.call r.outcome
  own : ∀ call phase, ch.current = some (call, phase) → ∀ o ∈ ch.outstanding, o = call
  read : ∀ call r, ch.current = some (call, .receiving (some (some r))) →
    r.id = zeroId ∧ ch.Produced call r.outcome
  returned : ∀ p ∈ ch.returned, ch.Produced p.1 p.2

variable {ch ch' : Channel T R P} {call : Nat}

/-! ## What one step leaves -/

theorem current_transfer (ch : Channel T R P) (call : Nat) (ok : Bool) :
    (ch.transfer call ok).current = ch.current := by
  unfold transfer
  split <;> rfl

theorem Produced.mono (h : ch.Produced call outcome)
    (hvalues : ∀ (c : Nat) (v : T), ch.values[c]? = some v → ch'.values[c]? = some v)
    (hproduced : ∀ x ∈ ch.produced, x ∈ ch'.produced) : ch'.Produced call outcome := by
  obtain ⟨value, hvalue, hmem⟩ := h
  exact ⟨value, hvalues _ _ hvalue, hproduced _ hmem⟩

namespace Paired

theorem new : Paired (Channel.new : Channel T R P) where
  requests := fun _ h => by cases h
  tasks := fun _ h => by cases h
  responses := fun _ h => by cases h
  own := fun _ _ h => by cases h
  read := fun _ _ h => by cases h
  returned := fun _ h => by cases h

theorem finish (h : ch.Paired) : ch.finish.Paired :=
  { h with own := fun _ _ hc => (by cases hc), read := fun _ _ hc => (by cases hc) }

theorem setPhase (h : ch.Paired) (hcurrent : ch.current = some (call, old))
    (hphase : ∀ r, phase ≠ .receiving (some (some r))) : (ch.setPhase call phase).Paired := by
  refine { h with own := fun c _ hc => ?_, read := fun c r hc => ?_ }
  · cases hc
    exact h.own call old hcurrent
  · cases hc
    exact absurd rfl (hphase r)

theorem transfer (h : ch.Paired) (hcurrent : ch.current = some (call, old)) (ok : Bool) :
    (ch.transfer call ok).Paired := by
  unfold Channel.transfer
  split
  · next value hvalue =>
    refine { h with requests := fun r hr => ?_, own := fun c phase hc o ho => ?_ }
    · rcases List.mem_append.mp hr with hr | hr
      · exact h.requests r hr
      · cases List.mem_singleton.mp hr
        exact ⟨rfl, hvalue⟩
    · have heq : c = call := by
        rw [hcurrent] at hc
        cases hc
        rfl
      subst heq
      have hold := h.own c old hcurrent o
      simp only [outstanding, List.filterMap_append, List.mem_append] at ho hold
      rcases ho with ((ho | ho) | ho) | ho
      · exact hold (.inl (.inl ho))
      · simpa using ho
      · exact hold (.inl (.inr ho))
      · exact hold (.inr ho)
  · exact h

/-- A response is read: it is that of the call. -/
theorem answer {answer : Option (Response R P)} (h : ch.Paired)
    (hcurrent : ch.current = some (call, old)) (hanswer : ch.answer ok = some (answer, ch'))
    (hphase : ∀ r, phase = .receiving (some (some r)) → answer = some r) :
    (ch'.setPhase call phase).Paired := by
  have hown := h.own call old hcurrent
  unfold Channel.answer at hanswer
  split at hanswer
  · cases hanswer
  · next r responses hresponses =>
    cases hanswer
    have hmade := h.responses r (hresponses ▸ List.mem_cons_self ..)
    have hcall : r.call = call := by
      refine hown _ (List.mem_append_right _ ?_)
      rw [hresponses]
      exact List.mem_cons_self ..
    refine { h with responses := fun q hq => ?_, own := fun c _ hc o ho => ?_,
                    read := fun c q hc => ?_ }
    · exact h.responses q (hresponses ▸ List.mem_cons_of_mem _ hq)
    · cases hc
      refine hown o ?_
      have ho' : o ∈ (ch.requests.filterMap (Option.map Request.call) ++
        ch.tasks.map (·.request.call)) ++ responses.map Response.call := ho
      rw [outstanding, hresponses]
      rcases List.mem_append.mp ho' with ho' | ho'
      · exact List.mem_append_left _ ho'
      · exact List.mem_append_right _ (List.mem_cons_of_mem _ ho')
    · cases hc
      cases hphase q rfl
      exact hcall ▸ hmade
  · cases hanswer
    refine h.setPhase hcurrent fun r heq => ?_
    cases hphase r heq

section
variable (h : ch.Paired)
include h

theorem client (hcurrent : ch.current = some (call, phase))
    (hnext : ch.client call phase label = some ch') : ch'.Paired := by
  unfold Channel.client at hnext
  split at hnext
  · cases hnext
    exact h.setPhase hcurrent (by simp)
  · cases hnext
    exact h.finish
  · cases hnext
    exact h.finish
  · cases hnext
    exact (h.transfer hcurrent _).setPhase ((current_transfer ..).trans hcurrent) (by simp)
  · cases hnext
    exact h.setPhase hcurrent (by simp)
  · cases hnext
    split
    · exact h.setPhase hcurrent (by simp)
    · exact h.finish
  · cases hnext
    exact h.setPhase hcurrent (by simp)
  · cases hnext
    exact (h.transfer hcurrent _).setPhase ((current_transfer ..).trans hcurrent) (by simp)
  · cases hnext
    exact h.finish
  · obtain ⟨⟨answer, ch₁⟩, hanswer, rfl⟩ := Option.map_eq_some_iff.mp hnext
    exact h.answer hcurrent hanswer (by simp)
  · cases hnext
    exact h.setPhase hcurrent (by simp)
  · next r =>
    cases hnext
    refine { h.finish with returned := fun p hp => ?_ }
    rcases List.mem_append.mp hp with hp | hp
    · exact h.returned p hp
    · rw [List.mem_singleton.mp hp]
      exact (h.read call r hcurrent).2
  · cases hnext
    exact h.finish
  · cases hnext
    exact h.setPhase hcurrent (by simp)
  · obtain ⟨⟨answer, ch₁⟩, hanswer, rfl⟩ := Option.map_eq_some_iff.mp hnext
    exact h.answer hcurrent hanswer (by simp)
  · cases hnext
    exact h.finish
  · cases hnext

/-! ## The server -/

/-- Requests become tasks and tasks responses of the same call. -/
theorem server (hvalues : ch'.values = ch.values)
    (hcurrent : ch'.current = ch.current) (hreturned : ch'.returned = ch.returned)
    (hproduced : ∀ x ∈ ch.produced, x ∈ ch'.produced)
    (hout : ∀ o ∈ ch'.outstanding, o ∈ ch.outstanding)
    (hrequests : ∀ r, some r ∈ ch'.requests → some r ∈ ch.requests)
    (htasks : ∀ t ∈ ch'.tasks, t.request.id = zeroId ∧
      ch'.values[t.request.call]? = some t.request.value ∧
        ∀ outcome, t.outcome = some outcome → ch'.Produced t.request.call outcome)
    (hresponses : ∀ r ∈ ch'.responses, r.id = zeroId ∧ ch'.Produced r.call r.outcome) :
    ch'.Paired := by
  have hmono : ∀ {c : Nat} {outcome : Except P R}, ch.Produced c outcome →
      ch'.Produced c outcome := by
    intro c outcome hp
    refine hp.mono (fun c v hv => ?_) hproduced
    rw [hvalues]
    exact hv
  refine ⟨fun r hr => ?_, htasks, hresponses, fun call phase hc o ho => ?_,
    fun call r hc => ?_, fun p hp => ?_⟩
  · rw [hvalues]
    exact h.requests r (hrequests r hr)
  · exact h.own call phase (hcurrent ▸ hc) o (hout o ho)
  · have hread := h.read call r (hcurrent ▸ hc)
    exact ⟨hread.1, hmono hread.2⟩
  · rw [hreturned] at hp
    exact hmono (h.returned p hp)

theorem serve (hnext : ch.serve ok = some ch') : ch'.Paired := by
  unfold Channel.serve at hnext
  split at hnext
  · split at hnext
    · cases hnext
      exact h.server rfl rfl rfl (fun _ hx => hx) (fun _ ho => ho) (fun _ hr => hr) h.tasks
        h.responses
    · cases hnext
    · next requests hrequests =>
      cases hnext
      refine h.server rfl rfl rfl (fun _ hx => hx) (fun o ho => ?_) (fun r hr => ?_) h.tasks
        h.responses
      · rw [outstanding, hrequests]
        exact ho
      · rw [hrequests]
        exact List.mem_cons_of_mem _ hr
    · next request requests hrequests =>
      cases hnext
      have hrequest := h.requests request (hrequests ▸ List.mem_cons_self ..)
      refine h.server rfl rfl rfl (fun _ hx => hx) (fun o ho => ?_) (fun r hr => ?_)
        (fun t ht => ?_) h.responses
      · rw [outstanding, hrequests]
        simp only [outstanding, List.map_append, List.mem_append, List.map_cons, List.map_nil,
          List.not_mem_nil, or_false, List.filterMap_cons, Option.map_some, List.mem_cons] at ho ⊢
        rcases ho with (ho | ho | ho) | ho
        · exact .inl (.inl (.inr ho))
        · exact .inl (.inr ho)
        · exact .inl (.inl (.inl ho))
        · exact .inr ho
      · rw [hrequests]
        exact List.mem_cons_of_mem _ hr
      · rcases List.mem_append.mp ht with ht | ht
        · exact h.tasks t ht
        · rw [List.mem_singleton.mp ht]
          exact ⟨hrequest.1, hrequest.2, fun _ heq => (by cases heq)⟩
  · cases hnext

theorem produce (hnext : ch.produce j outcome = some ch') : ch'.Paired := by
  unfold Channel.produce at hnext
  split at hnext
  · next request htask =>
    cases hnext
    obtain ⟨hid, hvalue, _⟩ := h.tasks _ (List.mem_of_getElem? htask)
    have hmono : ∀ x ∈ ch.produced, x ∈ ch.produced ++ [(request.call, request.value, outcome)] :=
      fun x hx => List.mem_append_left _ hx
    refine h.server rfl rfl rfl hmono (fun o ho => ?_) (fun _ hr => hr) (fun t ht => ?_)
      fun r hr => ?_
    · have ho' : o ∈ (ch.requests.filterMap (Option.map Request.call) ++
          (ch.tasks.set j ⟨request, some outcome⟩).map (·.request.call)) ++
            ch.responses.map Response.call := ho
      unfold outstanding
      rw [List.mem_append, List.mem_append] at ho' ⊢
      refine ho'.imp_left (.imp_right fun htask' => ?_)
      obtain ⟨t, ht, rfl⟩ := List.mem_map.mp htask'
      obtain ⟨k, hk⟩ := List.getElem?_of_mem ht
      rcases mem_of_set hk with ⟨_, rfl⟩ | ⟨_, hk⟩
      · exact List.mem_map.mpr ⟨_, List.mem_of_getElem? htask, rfl⟩
      · exact List.mem_map.mpr ⟨t, List.mem_of_getElem? hk, rfl⟩
    · obtain ⟨k, hk⟩ := List.getElem?_of_mem ht
      rcases mem_of_set hk with ⟨_, rfl⟩ | ⟨_, hk⟩
      · refine ⟨hid, hvalue, fun o heq => ?_⟩
        cases heq
        exact ⟨request.value, hvalue, List.mem_append_right _ (List.mem_singleton_self _)⟩
      · obtain ⟨hid', hvalue', hout'⟩ := h.tasks t (List.mem_of_getElem? hk)
        exact ⟨hid', hvalue', fun o heq => (hout' o heq).mono (fun _ _ hv => hv) hmono⟩
    · obtain ⟨hid', hout'⟩ := h.responses r hr
      exact ⟨hid', hout'.mono (fun _ _ hv => hv) hmono⟩
  · cases hnext

theorem abort (j : Nat) : Paired { ch with tasks := ch.tasks.eraseIdx j } := by
  refine h.server rfl rfl rfl (fun _ hx => hx) (fun o ho => ?_) (fun _ hr => hr)
    (fun t ht => h.tasks t (List.mem_of_mem_eraseIdx ht)) h.responses
  have hsub : (ch.tasks.eraseIdx j).map (·.request.call) ⊆ ch.tasks.map (·.request.call) :=
    ((List.eraseIdx_sublist ..).map _).subset
  unfold outstanding at ho ⊢
  rw [List.mem_append, List.mem_append] at ho ⊢
  exact ho.imp_left (.imp_right fun hmem => hsub hmem)

theorem respond (hnext : ch.respond j ok = some ch') : ch'.Paired := by
  unfold Channel.respond at hnext
  split at hnext
  · next request outcome htask =>
    cases hnext
    have hmem := List.mem_of_getElem? htask
    have herased := h.abort j
    split
    · obtain ⟨hid, _, hout⟩ := h.tasks _ hmem
      have hcall : request.call ∈ ch.outstanding :=
        List.mem_append_left _ (List.mem_append_right _ (List.mem_map.mpr ⟨_, hmem, rfl⟩))
      refine { herased with responses := fun r hr => ?_, own := fun call phase hc o ho => ?_ }
      · rcases List.mem_append.mp hr with hr | hr
        · exact h.responses r hr
        · rw [List.mem_singleton.mp hr]
          exact ⟨hid, hout outcome rfl⟩
      · have ho' : o ∈ { ch with tasks := ch.tasks.eraseIdx j }.outstanding ∨
            o = request.call := by
          simp only [outstanding, List.map_append, List.mem_append, List.map_cons, List.map_nil,
            List.mem_singleton] at ho ⊢
          rcases ho with ho | ho | ho
          · exact .inl (.inl ho)
          · exact .inl (.inr ho)
          · exact .inr ho
        rcases ho' with ho' | rfl
        · exact herased.own call phase hc o ho'
        · exact h.own call phase hc _ hcall
    · exact herased
  · cases hnext

/-! ## Every step -/

/-- A call starts when nothing is outstanding. -/
theorem invoke (hclean : ch.outstanding = []) (value : T) : Paired { ch with
      values := ch.values ++ [value], current := some (ch.values.length, .locking) } := by
  have hvalues : ∀ (c : Nat) (v : T), ch.values[c]? = some v →
      (ch.values ++ [value])[c]? = some v := by
    intro c v hv
    rw [List.getElem?_append_left (List.getElem?_eq_some_iff.mp hv).1, hv]
  refine ⟨fun r hr => ?_, fun t ht => ?_, fun r hr => ?_, fun call phase hc o ho => ?_,
    fun call r hc => (by cases hc), fun p hp => ?_⟩
  · exact ⟨(h.requests r hr).1, hvalues _ _ (h.requests r hr).2⟩
  · obtain ⟨hid, hvalue, hout⟩ := h.tasks t ht
    exact ⟨hid, hvalues _ _ hvalue, fun o heq => (hout o heq).mono hvalues fun _ hx => hx⟩
  · exact ⟨(h.responses r hr).1, (h.responses r hr).2.mono hvalues fun _ hx => hx⟩
  · have ho' : o ∈ ch.outstanding := ho
    rw [hclean] at ho'
    cases ho'
  · exact (h.returned p hp).mono hvalues fun _ hx => hx

theorem close (ok : Bool) :
    Paired { ch with closed := true, requests := ch.requests ++ if ok then [none] else [] } := by
  have hcloses : ∀ r, some r ∈ ch.requests ++ (if ok then [none] else []) →
      some r ∈ ch.requests := by
    intro r hr
    cases ok <;> simpa using hr
  refine { h with requests := fun r hr => h.requests r (hcloses r hr),
                  own := fun call phase hc o ho => h.own call phase hc o ?_ }
  cases ok <;> simpa [outstanding] using ho

theorem next (hclean : ch.startsClean label = true)
    (hnext : ch.next label = some ch') : ch'.Paired := by
  unfold Channel.next at hnext
  split at hnext
  · split at hnext
    · cases hnext
      exact h.invoke (List.isEmpty_iff.mp hclean) _
    · cases hnext
  · split at hnext
    · cases hnext
      exact h.close _
    · cases hnext
  · exact h.serve hnext
  · exact h.produce hnext
  · exact h.respond hnext
  · cases hnext
    exact h.abort _
  · split at hnext
    · next hcurrent => exact h.client hcurrent hnext
    · cases hnext

end

end Paired

end Channel

def channels (T R P : Type) : System (Channel T R P) (InvokeLabel T R P) := ⟨.new, Channel.next⟩

/-- What a call returned or raised, the closure has made of its own value. -/
def InvokesOwn {T R P : Type} (ch : Channel T R P) : Prop :=
  ∀ call outcome, (call, outcome) ∈ ch.returned → ch.Produced call outcome

/-- **Pairing**: in every run in which a call starts when nothing is left of
the earlier ones. -/
theorem invokes_own {T R P : Type} {ch : Channel T R P}
    (h : (channels T R P).Reaches (fun ch label => ch.startsClean label = true) ch) :
    InvokesOwn ch := by
  have hpaired : ch.Paired :=
    h.invariant (P := Channel.Paired) Channel.Paired.new
      fun _ _ _ hpaired hclean hnext => hpaired.next hclean hnext
  exact fun call outcome hmem => hpaired.returned (call, outcome) hmem

/-- The first call is dropped before its request is written; the second
returns, and the third raises what the closure raised for it. -/
theorem invokes_own_two : ∃ ch : Channel Nat Nat String,
    (channels Nat Nat String).Reaches (fun ch label => ch.startsClean label = true) ch ∧
      ch.values = [1, 2, 3] ∧ ch.returned = [(1, .ok 20), (2, .error "boom")] ∧
      InvokesOwn ch := by
  have hrun : ((channels Nat Nat String).restrict Channel.startsClean).run
      (channels Nat Nat String).start
      [.invoke 1, .locked true, .drop, .write false, .dropped,
        .invoke 2, .locked true, .write true, .sent, .serve true, .produce 0 (.ok 20),
        .respond 0 true, .read true, .received,
        .invoke 3, .locked true, .write true, .serve true, .sent, .produce 0 (.error "boom"),
        .respond 0 true, .read true, .received] = some _ := rfl
  have hreach := System.Reaches.start.run hrun
  exact ⟨_, hreach, rfl, rfl, invokes_own hreach⟩

/-- A call is dropped while it waits for its response: the next call returns
that response. -/
theorem exists_not_invokes_own : ∃ ch : Channel Nat Nat String,
    (channels Nat Nat String).Reaches (fun _ _ => True) ch ∧
      ch.returned = [(1, .ok 10)] ∧ ch.produced = [(0, 1, .ok 10)] ∧ ¬ InvokesOwn ch := by
  have hrun : (channels Nat Nat String).run (channels Nat Nat String).start
      [.invoke 1, .locked true, .write true, .sent, .drop, .read false, .dropped, .serve true,
        .produce 0 (.ok 10), .respond 0 true,
        .invoke 2, .locked true, .write true, .sent, .read true, .received] = some _ := rfl
  refine ⟨_, System.reaches_run hrun, rfl, rfl, fun hown => ?_⟩
  obtain ⟨value, _, hmem⟩ := hown 1 (.ok 10) (List.mem_singleton_self _)
  cases List.mem_singleton.mp hmem

end Kimojio.Pipe
