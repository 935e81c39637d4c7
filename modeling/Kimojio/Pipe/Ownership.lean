import Kimojio.Pipe.MessagePipe

/-!
# Kimojio.Pipe.Ownership

Who owns a message.

A message is owned by the call that sends it until its frame is in the pipe,
then by the pipe, and then by the call that has read it, until it is handed
over or dropped. `owners` counts all of these, so that a message that is
lost has none, and one that is freed too early has two.

A call that is dropped can only guess whether the transfer happened: a plain
send takes it for granted that the frame is in the pipe, one with an id that
it is not, and no receive looks at what it has read.
-/

namespace Kimojio.Pipe

open Kimojio.Ring (Errno)

/-- The messages that a call owns. -/
def Call.held : Call → List Nat
  | .send _ frame (.created) => [frame.message]
  | .send _ frame (.writing none) | .send _ frame (.dropping none) => [frame.message]
  | .send _ frame (.writing (some (.error _))) | .send _ frame (.dropping (some (.error _))) =>
    [frame.message]
  | .recv _ (.reading (some (.ok (some frame)))) => [frame.message]
  | .recv _ (.dropping (some (.ok (some frame)))) => [frame.message]
  | _ => []

/-- What a receive has read does not depend on its being dropped. -/
theorem Call.held_reading (dir : Bool) (result : Option (Except Errno (Option Frame))) :
    (Call.recv dir (.reading result)).held = (Call.recv dir (.dropping result)).held := by
  match result with
  | none | some (.error _) | some (.ok none) | some (.ok (some _)) => rfl

namespace MessagePipe

/-- How many owners a message has, with those that it was handed to and the
times that it was dropped. -/
def owners (p : MessagePipe) (m : Nat) : Nat :=
  (p.calls.flatMap Call.held).count m +
    (((p.fifo false).map Frame.message).count m + ((p.fifo true).map Frame.message).count m) +
    (p.received.map Frame.message).count m + p.freed.count m

/-- A call that is dropped guesses right: a plain send after its frame is in
the pipe, one with an id after it is not, and a receive without a message.
What it leaves on its way does not arrive. -/
def dropsRight (kind : Kind) (p : MessagePipe) : Label → Bool
  | .poll i true =>
    match p.calls[i]? with
    | some (.send _ _ .created) => kind = .id
    | _ => true
  | .drop i inTask =>
    match p.calls[i]? with
    | some (.send _ _ (.writing none)) => inTask || kind = .id
    | _ => true
  | .dropped i =>
    match p.calls[i]? with
    | some (.send _ _ (.dropping (some (.ok ())))) => kind = .plain
    | some (.send _ _ (.dropping (some (.error _)))) => kind = .id
    | some (.recv _ (.dropping (some (.ok (some _))))) => false
    | _ => true
  | .write i (.ok ()) =>
    match p.calls[i]? with
    | some (.send _ _ .orphaned) => false
    | _ => true
  | .read i .frame =>
    match p.calls[i]? with
    | some (.recv _ .orphaned) => false
    | _ => true
  | _ => true

/-! ## What one change does to the owners -/

section

variable {p p' : MessagePipe} {i : Nat} {call : Call} (m : Nat)

theorem owners_setCall (h : p.calls[i]? = some call) (call' : Call) :
    (p.setCall i call').owners m + call.held.count m = p.owners m + call'.held.count m := by
  have hcount := count_flatMap_set h Call.held call' m
  unfold owners setCall
  dsimp only
  omega

theorem owners_push (dir : Bool) (frame : Frame) :
    (p.push dir frame).owners m = p.owners m + [frame.message].count m := by
  unfold owners push
  cases dir <;> simp only [Bool.false_eq_true, Bool.true_eq_false, if_true, if_false,
    List.map_append, List.map_cons, List.map_nil, List.count_append] <;> omega

theorem owners_pop (h : p.pop dir = some (frame, p')) :
    p'.owners m + [frame.message].count m = p.owners m := by
  unfold pop at h
  split at h
  · cases h
  · next rest hfifo =>
    cases h
    unfold owners
    cases dir <;> simp only [Bool.false_eq_true, Bool.true_eq_false, if_true, if_false, hfifo,
      List.map_cons, List.count_cons, List.count_nil] <;> omega

theorem owners_free (message : Nat) :
    (p.free message).owners m = p.owners m + [message].count m := by
  unfold owners free
  simp only [List.count_cons, List.count_nil]
  omega

theorem owners_deliver (frame : Frame) :
    (p.deliver frame).owners m = p.owners m + [frame.message].count m := by
  unfold owners deliver
  simp only [List.map_cons, List.count_cons, List.count_nil]
  omega

end

/-- No message is made, and none changes the number of its owners. -/
structure Keeps (p p' : MessagePipe) : Prop where
  made : p'.made = p.made
  owners : ∀ m, p'.owners m = p.owners m

namespace Keeps

variable {p p₁ p' : MessagePipe} {i : Nat} {dir aborted inTask : Bool} {frame : Frame} {kind : Kind}

theorem refl (p : MessagePipe) : p.Keeps p := ⟨rfl, fun _ => rfl⟩

/-- What a call gives up is what the pipe gains. -/
theorem setCall (h : p.calls[i]? = some call) (hcalls : p₁.calls = p.calls)
    (hmade : p₁.made = p.made)
    (howners : ∀ m, p₁.owners m + call'.held.count m = p.owners m + call.held.count m) :
    p.Keeps (p₁.setCall i call') := by
  refine ⟨hmade, fun m => ?_⟩
  have hset := owners_setCall (p := p₁) m (hcalls ▸ h) call'
  have hmoved := howners m
  omega

/-! ## Sending -/

section
variable (h : p.calls[i]? = some (.send dir frame state))
include h

theorem pollSend (hright : dropsRight kind p (.poll i aborted) = true)
    (hnext : MessagePipe.pollSend kind p i dir frame aborted state = some p') : p.Keeps p' := by
  cases state with
  | created =>
    rw [MessagePipe.pollSend] at hnext
    split at hnext
    · next haborted =>
      -- the buffer is dropped before anything is written
      subst haborted
      cases hnext
      simp only [dropsRight, h, decide_eq_true_eq] at hright
      subst hright
      exact setCall h rfl rfl fun m => by simp [dropBuffer, owners_free, Call.held]
    · cases hnext
      exact setCall h rfl rfl fun m => rfl
  | writing result =>
    match result with
    | none =>
      rw [MessagePipe.pollSend] at hnext
      split at hnext
      · cases hnext
        exact setCall h rfl rfl fun m => rfl
      · cases hnext
        exact refl p
    | some (.ok ()) =>
      cases hnext
      exact setCall h rfl rfl fun m => rfl
    | some (.error e) =>
      cases hnext
      exact setCall h rfl rfl fun m => by simp [owners_free, Call.held]
  | _ => cases hnext

theorem dropSend (hright : dropsRight kind p (.drop i inTask) = true)
    (hnext : MessagePipe.dropSend kind p i dir frame inTask state = some p') : p.Keeps p' := by
  cases state with
  | created =>
    cases hnext
    exact setCall h rfl rfl fun m => by simp [owners_free, Call.held]
  | writing result =>
    cases result with
    | none =>
      rw [MessagePipe.dropSend] at hnext
      split at hnext
      · cases hnext
        exact setCall h rfl rfl fun m => rfl
      · next hout =>
        simp only [dropsRight, h, hout, Bool.false_or, decide_eq_true_eq] at hright
        subst hright
        cases hnext
        exact setCall h rfl rfl fun m => by simp [dropBuffer, owners_free, Call.held]
    | some result =>
      cases hnext
      exact setCall h rfl rfl fun m => by cases result <;> rfl
  | _ => cases hnext

theorem droppedSend (hright : dropsRight kind p (.dropped i) = true)
    (hnext : MessagePipe.droppedSend kind p i dir frame state = some p') : p.Keeps p' := by
  cases state with
  | dropping result =>
    match result with
    | none => cases hnext
    | some (.ok ()) =>
      simp only [dropsRight, h, decide_eq_true_eq] at hright
      subst hright
      cases hnext
      exact setCall h rfl rfl fun m => rfl
    | some (.error e) =>
      simp only [dropsRight, h, decide_eq_true_eq] at hright
      subst hright
      cases hnext
      exact setCall h rfl rfl fun m => by simp [dropBuffer, owners_free, Call.held]
  | _ => cases hnext

theorem writeFrame (hright : dropsRight kind p (.write i result) = true)
    (hnext : MessagePipe.writeFrame p i dir frame result state = some p') : p.Keeps p' := by
  cases result with
  | ok =>
    cases state with
    | writing done | dropping done =>
      cases done with
      | none =>
        cases hnext
        exact setCall h rfl rfl fun m => by simp [owners_push, Call.held]
      | some => cases hnext
    | orphaned =>
      simp only [dropsRight, h] at hright
      cases hright
    | _ => cases hnext
  | error e =>
    cases state with
    | writing done | dropping done =>
      cases done with
      | none =>
        cases hnext
        exact setCall h rfl rfl fun m => rfl
      | some => cases hnext
    | orphaned =>
      cases hnext
      exact setCall h rfl rfl fun m => rfl
    | _ => cases hnext

end

/-! ## Receiving -/

section
variable (h : p.calls[i]? = some (.recv dir state))
include h

theorem pollRecv (hnext : MessagePipe.pollRecv kind p i dir aborted state = some p') : p.Keeps p' :=
    by
  cases state with
  | created =>
    simp only [MessagePipe.pollRecv] at hnext
    split at hnext
    · split at hnext
      · cases hnext
        exact refl p
      · cases hnext
        exact setCall h rfl rfl fun m => rfl
    · cases hnext
      exact setCall h rfl rfl fun m => rfl
  | reading result =>
    match result with
    | none =>
      simp only [MessagePipe.pollRecv] at hnext
      split at hnext
      · split at hnext
        · cases hnext
          exact refl p
        · cases hnext
          exact setCall h rfl rfl fun m => rfl
      · cases hnext
        exact refl p
    | some (.ok (some frame)) =>
      cases hnext
      exact setCall h rfl rfl fun m => by simp [owners_deliver, Call.held]
    | some (.ok none) | some (.error _) =>
      cases hnext
      exact setCall h rfl rfl fun m => rfl
  | _ => cases hnext

theorem dropRecv (hnext : MessagePipe.dropRecv kind p i dir inTask state = some p') : p.Keeps p' :=
    by
  cases state with
  | created =>
    cases hnext
    exact setCall h rfl rfl fun m => rfl
  | reading result =>
    match result with
    | none =>
      simp only [MessagePipe.dropRecv] at hnext
      split at hnext <;> cases hnext <;> exact setCall h rfl rfl fun m => rfl
    | some (.ok (some _)) | some (.ok none) | some (.error _) =>
      cases hnext
      exact setCall h rfl rfl fun m => rfl
  | _ => cases hnext

theorem droppedRecv (hright : dropsRight kind p (.dropped i) = true)
    (hnext : MessagePipe.droppedRecv p i dir state = some p') : p.Keeps p' := by
  cases state with
  | dropping result =>
    match result with
    | none => cases hnext
    | some (.ok (some frame)) =>
      simp only [dropsRight, h] at hright
      cases hright
    | some (.ok none) | some (.error _) =>
      cases hnext
      exact setCall h rfl rfl fun m => rfl
  | _ => cases hnext

end

/-- A frame that is read leaves the pipe. -/
theorem owners_answerRead (h : p.answerRead dir answer = some (result, p₁)) :
    p₁.calls = p.calls ∧ p₁.made = p.made ∧ (answer ≠ .frame → p₁ = p) ∧
      ∀ m, p₁.owners m + (Call.recv dir (.reading (some result))).held.count m = p.owners m := by
  cases answer with
  | frame =>
    obtain ⟨⟨frame, p₂⟩, hpop, heq⟩ := Option.map_eq_some_iff.mp h
    cases heq
    have hsame : p₁.calls = p.calls ∧ p₁.made = p.made := by
      unfold MessagePipe.pop at hpop
      split at hpop <;> cases hpop
      exact ⟨rfl, rfl⟩
    exact ⟨hsame.1, hsame.2, fun hne => absurd rfl hne, fun m => owners_pop m hpop⟩
  | eof | error =>
    cases h
    exact ⟨rfl, rfl, fun _ => rfl, fun m => rfl⟩

theorem readFrame (h : p.calls[i]? = some (.recv dir state))
    (hright : dropsRight kind p (.read i answer) = true)
    (hnext : MessagePipe.readFrame p i dir answer state = some p') : p.Keeps p' := by
  rw [MessagePipe.readFrame] at hnext
  split at hnext
  · cases hnext
  · next result p₁ hanswer =>
    obtain ⟨hcalls, hmade, hsame, howners⟩ := owners_answerRead hanswer
    cases state with
    | reading done =>
      cases done with
      | none =>
        cases hnext
        exact setCall h hcalls hmade howners
      | some => cases hnext
    | dropping done =>
      cases done with
      | none =>
        cases hnext
        refine setCall h hcalls hmade fun m => ?_
        rw [← Call.held_reading]
        exact howners m
      | some => cases hnext
    | orphaned =>
      have hne : answer ≠ .frame := by
        intro heq
        subst heq
        simp only [dropsRight, h] at hright
        cases hright
      cases hnext
      exact setCall h hcalls hmade fun m => by rw [hsame hne]; rfl
    | _ => cases hnext

end Keeps

/-! ## Runs -/

/-- Every message that was made has one owner. -/
def OwnedOnce (p : MessagePipe) : Prop := ∀ m, p.owners m = if m < p.made then 1 else 0

variable {p p' : MessagePipe} {kind : Kind}

theorem OwnedOnce.keeps (h : p.OwnedOnce) (hk : p.Keeps p') : p'.OwnedOnce := by
  intro m
  rw [hk.owners, hk.made]
  exact h m

theorem OwnedOnce.made (h : p.OwnedOnce) (hmade : p'.made = p.made + 1)
    (howners : ∀ m, p'.owners m = p.owners m + [p.made].count m) : p'.OwnedOnce := by
  intro m
  rw [howners, hmade, h m]
  by_cases heq : m = p.made
  · simp [heq]
  · have hlt : m < p.made + 1 ↔ m < p.made := by omega
    simp [hlt, Ne.symm heq]

theorem message_buffer (kind : Kind) (id m : Nat) : (buffer kind id m).message = m := by
  cases kind <;> rfl

theorem owners_append (call : Call) (n m : Nat) :
    ({ p with calls := p.calls ++ [call], made := n }).owners m =
      p.owners m + call.held.count m := by
  unfold owners
  simp only [List.flatMap_append, List.flatMap_cons, List.flatMap_nil, List.append_nil,
    List.count_append]
  omega

theorem OwnedOnce.next (h : p.OwnedOnce) (hright : dropsRight kind p label = true)
    (hnext : p.next kind label = some p') : p'.OwnedOnce := by
  cases label with
  | sendMessage dir id =>
    cases hnext
    refine h.made rfl fun m => (owners_append ..).trans ?_
    rw [Call.held, message_buffer]
  | recvMessage dir =>
    cases hnext
    exact h.keeps ⟨rfl, fun m => owners_append (.recv dir .created) p.made m⟩
  | poll i aborted =>
    simp only [MessagePipe.next] at hnext
    split at hnext
    · next hcall => exact h.keeps (.pollSend hcall hright hnext)
    · next hcall => exact h.keeps (.pollRecv hcall hnext)
    · cases hnext
  | drop i inTask =>
    simp only [MessagePipe.next] at hnext
    split at hnext
    · next hcall => exact h.keeps (.dropSend hcall hright hnext)
    · next hcall => exact h.keeps (.dropRecv hcall hnext)
    · cases hnext
  | dropped i =>
    simp only [MessagePipe.next] at hnext
    split at hnext
    · next hcall => exact h.keeps (.droppedSend hcall hright hnext)
    · next hcall => exact h.keeps (.droppedRecv hcall hright hnext)
    · cases hnext
  | write i result =>
    simp only [MessagePipe.next] at hnext
    split at hnext
    · next hcall => exact h.keeps (.writeFrame hcall hright hnext)
    · cases hnext
  | read i answer =>
    simp only [MessagePipe.next] at hnext
    split at hnext
    · next hcall => exact h.keeps (.readFrame hcall hright hnext)
    · cases hnext
  | sendMessageSync dir id result =>
    cases result with
    | ok =>
      cases hnext
      refine h.made rfl fun m => (owners_push ..).trans ?_
      rw [message_buffer]
      rfl
    | error e =>
      cases hnext
      exact h.made rfl fun m => owners_free ..
  | recvMessageSync dir answer =>
    simp only [MessagePipe.next] at hnext
    split at hnext
    · next frame p₁ hanswer =>
      cases hnext
      obtain ⟨_, hmade, _, howners⟩ := Keeps.owners_answerRead hanswer
      exact h.keeps ⟨hmade, fun m => (owners_deliver ..).trans (howners m)⟩
    · next result p₁ hnot hanswer =>
      cases hnext
      obtain ⟨_, hmade, _, howners⟩ := Keeps.owners_answerRead hanswer
      refine h.keeps ⟨hmade, fun m => ?_⟩
      rw [← howners m]
      match result with
      | .error _ | .ok none => rfl
      | .ok (some frame) => exact absurd rfl (hnot frame)
    · cases hnext

end MessagePipe

/-- Each message has one owner until it is handed over or dropped; none is
freed that is in the pipe, and none is delivered twice. -/
structure MessagesOwned (p : MessagePipe) : Prop where
  owner : ∀ m < p.made, p.owners m = 1
  inPipe : ∀ d, ∀ frame ∈ p.fifo d, frame.message ∉ p.freed
  once : (p.received.map Frame.message).Nodup

/-- **Ownership**: in every run in which the calls that are dropped guess
right. -/
theorem messages_owned {kind : Kind} {p : MessagePipe}
    (h : (pipes kind).Reaches (fun p label => p.dropsRight kind label = true) p) :
    MessagesOwned p := by
  have howned : p.OwnedOnce :=
    h.invariant (P := MessagePipe.OwnedOnce) (fun _ => rfl)
      fun _ _ _ howned hright hnext => howned.next hright hnext
  have hle : ∀ m, p.owners m ≤ 1 := by
    intro m
    rw [howned m]
    split <;> decide
  refine ⟨fun m hm => (howned m).trans (if_pos hm), fun d frame hframe hfreed => ?_, ?_⟩
  · have hpipe : 0 < ((p.fifo d).map Frame.message).count frame.message :=
      List.count_pos_iff.mpr (List.mem_map_of_mem hframe)
    have hcount : 0 < p.freed.count frame.message := List.count_pos_iff.mpr hfreed
    have htwo := hle frame.message
    unfold MessagePipe.owners at htwo
    cases d <;> omega
  · rw [List.nodup_iff_count]
    intro m
    have hone := hle m
    unfold MessagePipe.owners at hone
    omega

/-- A message is sent and received, and a second send is dropped when its
write has been canceled. -/
theorem messages_owned_canceled : ∃ p : MessagePipe,
    (pipes .id).Reaches (fun p label => p.dropsRight .id label = true) p ∧ p.made = 2 ∧
      p.received = [⟨some 9, 0⟩] ∧ p.freed = [1] ∧ MessagesOwned p := by
  have hrun : ((pipes .id).restrict (MessagePipe.dropsRight .id)).run (pipes .id).start
      [.sendMessage true 9, .poll 0 false, .write 0 (.ok ()), .poll 0 false, .recvMessage true,
        .poll 1 false, .read 1 .frame, .poll 1 false, .sendMessage true 9, .poll 2 false,
        .drop 2 true, .write 2 (.error .canceled), .dropped 2] = some _ := rfl
  have hreach := System.Reaches.start.run hrun
  exact ⟨_, hreach, rfl, rfl, rfl, messages_owned hreach⟩

/-- A send is dropped while its write is on its way. On a plain pipe a write
that is canceled loses its message; on a pipe with ids the message of a write
that has completed is freed in the pipe. -/
theorem exists_not_messages_owned :
    (∃ p : MessagePipe, (pipes .plain).Reaches (fun _ _ => True) p ∧ ¬ MessagesOwned p) ∧
      ∃ p : MessagePipe, (pipes .id).Reaches (fun _ _ => True) p ∧ ¬ MessagesOwned p := by
  constructor
  · have hrun : (pipes .plain).run (pipes .plain).start
        [.sendMessage true 0, .poll 0 false, .drop 0 true, .write 0 (.error .canceled),
          .dropped 0] = some _ := rfl
    refine ⟨_, System.reaches_run hrun, fun howned => ?_⟩
    have hone := howned.owner 0 (by decide)
    cases hone
  · have hrun : (pipes .id).run (pipes .id).start
        [.sendMessage true 0, .poll 0 false, .drop 0 true, .write 0 (.ok ()), .dropped 0] =
        some _ := rfl
    refine ⟨_, System.reaches_run hrun, fun howned => ?_⟩
    exact howned.inPipe true ⟨some 0, 0⟩ (List.mem_singleton_self _) (List.mem_singleton_self _)

end Kimojio.Pipe
