import Kimojio.Ring.Ownership

/-!
# Kimojio.Ring.IoInvariant

What holds of the rings and the completions between any two steps.

`Inv held io` is relative to the references that are held outside: every
primitive of `Io` has one lemma that says how they change. It also ties the
queued cancellations to their operations: a cancellation that is behind an
operation with the same address was made for this operation, because the
address cannot be reused while the operation is in flight.
-/

namespace Kimojio.Ring

/-- A cancellation behind an operation at the same address is meant for it. -/
def CancelsOwn : Sqe → Sqe → Prop
  | .op r _, .asyncCancel r' => r.addr = r'.addr → r.op = r'.op
  | _, _ => True

structure Inv (held : List Ref) (io : Io) : Prop where
  owns : Owns held io.inFlight io.heap io.completionPool
  cancels : ∀ b, ((io.rings b).kernel ++ (io.rings b).sq).Pairwise CancelsOwn
  placed : ∀ a c, io.heap.get a = some c → io.places[c.op]? = some a
  delivered : io.delivered.Nodup
  ended : ∀ a c, io.heap.get a = some c → c.op ∈ io.delivered → c.state = .terminated
  past : ∀ o ∈ io.delivered, o < io.nextOp
  named : ∀ p ∈ io.named, p.1 = p.2
  faults : io.faults = []

namespace Io

/-- No operation is made, none goes back or ends elsewhere than where `ends`
says, and these cancellations are asked for. -/
structure Later (ends : Nat → Prop) (new : List (Nat × Cause)) (io io' : Io) : Prop where
  heap : Ring.Later ends io.heap io'.heap
  places : io'.places = io.places
  requests : io'.requests = new ++ io.requests

theorem requests_cancel (io : Io) (r : Ref) (cause : Cause) :
    (io.cancel r cause).requests = (r.op, cause) :: io.requests := by
  unfold cancel
  dsimp only
  split
  · split <;> rfl
  · rfl

namespace Later

variable {ends : Nat → Prop} {io io₁ io₂ : Io} {new : List (Nat × Cause)}

theorem refl (io : Io) : io.Later ends [] io := ⟨.refl _, rfl, rfl⟩

theorem trans (h : io.Later ends new io₁) (h' : io₁.Later ends [] io₂) : io.Later ends new io₂ :=
  ⟨h.heap.trans h'.heap, h'.places.trans h.places, h'.requests.trans h.requests⟩

theorem append (h : io.Later ends new io₁) (h' : io₁.Later ends new' io₂) :
    io.Later ends (new' ++ new) io₂ := by
  refine ⟨h.heap.trans h'.heap, h'.places.trans h.places, ?_⟩
  rw [h'.requests, h.requests, List.append_assoc]

theorem completionOf (h : io.Later ends new io₁) (hc : io₁.completionOf o = some c') :
    ∃ a c, io.places[o]? = some a ∧ io.completionOf o = some c ∧ c.Later (ends a) c' := by
  unfold Io.completionOf at hc ⊢
  obtain ⟨a, ha, hget⟩ := Option.bind_eq_some_iff.mp hc
  obtain ⟨hget, hop⟩ := Option.filter_eq_some_iff.mp hget
  obtain ⟨c, hc, hl⟩ := h.heap a c' hget
  rw [h.places] at ha
  have hop' : (c.op == o) = true := by rw [← hl.op]; exact hop
  exact ⟨a, c, ha, by rw [ha]; exact Option.filter_eq_some_iff.mpr ⟨hc, hop'⟩, hl⟩

theorem setRing (io : Io) (b : Bool) (ring : IoUring) : io.Later ends [] (io.setRing b ring) :=
  ⟨.refl _, rfl, rfl⟩

theorem clone (io : Io) (a : Nat) : io.Later ends [] (io.clone a) := ⟨.clone _ a, rfl, rfl⟩

theorem dropRc (io : Io) (a : Nat) : io.Later ends [] (io.dropRc a) := ⟨.drop _ a, rfl, rfl⟩

theorem returnCompletion (io : Io) (a : Nat) : io.Later ends [] (io.returnCompletion a) := by
  unfold Io.returnCompletion
  split
  · exact ⟨.refl _, rfl, rfl⟩
  · exact .dropRc io a

/-- The completion of an operation that goes on, or ends where it may. -/
theorem setState (hc : io.heap.get a = some c) (hrank : c.state.rank ≤ state.rank)
    (hends : state.isFinished = true → ends a) : io.Later ends [] (io.setState a state) := by
  refine ⟨.modify fun c' hc' => ?_, rfl, rfl⟩
  cases hc.symm.trans hc'
  exact ⟨rfl, hrank, fun hended => .inr (hends hended)⟩

theorem finish (hc : io.heap.get a = some c) (hstate : c.state = .completed result) :
    io.Later ends [] (io.finish a result) := by
  refine ⟨.modify fun c' hc' => ?_, rfl, rfl⟩
  cases hc.symm.trans hc'
  refine ⟨?_, ?_, fun _ => .inl ?_⟩
  · unfold Completion.takeFd
    split <;> rfl
  · rw [hstate]
    exact Nat.le_succ 3
  · rw [hstate]
    rfl

/-- A cancellation ends what has not been submitted. -/
theorem cancel (cause : Cause) (hends : ∀ c, io.heap.get r.addr = some c →
    c.state.isSubmitted = false → ends r.addr) :
    io.Later ends [(r.op, cause)] (io.cancel r cause) := by
  unfold Io.cancel
  dsimp only
  split
  · next c hc =>
    split
    · next hstate =>
      have hlater : io.Later ends [] (io.setState r.addr (.completed (.error .canceled))) :=
        .setState hc (by rw [hstate]; exact Nat.zero_le _) fun _ => hends c hc (by rw [hstate]; rfl)
      exact ⟨hlater.heap, rfl, rfl⟩
    · next hstate =>
      have hlater : io.Later ends [] (io.setState r.addr (.submitted true)) :=
        .setState hc (by rw [hstate]; exact Nat.le_succ _) nofun
      exact ⟨hlater.heap, rfl, rfl⟩
    · exact ⟨.refl _, rfl, rfl⟩
  · exact ⟨.refl _, rfl, rfl⟩

theorem poll (h : io.poll aborted r = (io₁, result)) : io.Later ends [] io₁ := by
  rw [Io.poll] at h
  split at h
  · next c hc =>
    split at h
    · next hstate =>
      split at h
      · cases h
        exact .refl io
      · cases h
        refine .trans (.clone io r.addr) (.trans (.setRing ..) (.setState (c := c) ?_ ?_ nofun))
        · exact (RcHeap.get_clone ..).trans hc
        · rw [hstate]
          exact Nat.zero_le _
    · split at h <;> cases h <;> exact .refl io
    · next result hstate =>
      cases h
      have hret : Later ends [] _ _ := returnCompletion
        { io.finish r.addr result with delivered := r.op :: io.delivered } r.addr
      exact (finish hc hstate).trans ⟨hret.heap, hret.places, hret.requests⟩
    · cases h
      exact .refl io
  · cases h
    exact .refl io

theorem abandon (io : Io) (r : Ref) : io.Later ends [] (io.abandon r) := by
  unfold Io.abandon
  split
  · next c hc =>
    split
    · next hstate => exact .trans (.finish hc hstate) (.dropRc ..)
    · exact .dropRc ..
  · exact .refl io

theorem take (h : io.take b = some io₁) : io.Later ends [] io₁ := by
  rw [Io.take] at h
  split at h
  · cases h
  · dsimp only at h
    split at h <;> cases h <;> exact ⟨.refl _, rfl, rfl⟩

theorem post (h : io.post b i result = some io₁) : io.Later ends [] io₁ := by
  rw [Io.post] at h
  split at h
  · cases h
  · split at h
    · split at h <;> cases h <;> exact ⟨.refl _, rfl, rfl⟩
    · cases h
      exact ⟨.refl _, rfl, rfl⟩

/-- The operation of the first entry of a queue ends. -/
theorem processCompletion (h : io.processCompletion b = some io₁)
    (hends : ∀ r, (io.rings b).cq.head?.bind Cqe.userData = some r → ends r.addr) :
    io.Later ends [] io₁ := by
  rw [Io.processCompletion] at h
  split at h
  · cases h
  · next hcq =>
    dsimp only at h
    split at h
    · cases h
      exact ⟨.refl _, rfl, rfl⟩
    · next r hdata =>
      split at h
      · cases h
        exact ⟨.refl _, rfl, rfl⟩
      · next c hc =>
        split at h
        · cases h
          exact ⟨.refl _, rfl, rfl⟩
        · next canceled hstate =>
          cases h
          refine .trans (.setRing ..) (.trans (.setState hc ?_ fun _ => ?_) (.returnCompletion ..))
          · rw [hstate]
            show _ ≤ 3
            cases canceled <;> decide
          · exact hends r (by simp [hcq, hdata])
        · cases h
          exact ⟨.refl _, rfl, rfl⟩

end Later

/-! ## The ring of an entry -/

theorem rings_setRing (io : Io) (b b' : Bool) (ring : IoUring) :
    (io.setRing b ring).rings b' = if b' = b then ring else io.rings b' := rfl

/-- What one ring gains or loses in flight, the thread does. -/
theorem inFlight_setRing {io : Io} (xs ys : List Ref)
    (h : (xs ++ (io.rings b).inFlight).Perm (ys ++ ring.inFlight)) :
    (xs ++ io.inFlight).Perm (ys ++ (io.setRing b ring).inFlight) := by
  cases b with
  | false =>
    show (xs ++ ((io.rings false).inFlight ++ _)).Perm (ys ++ (ring.inFlight ++ _))
    rw [← List.append_assoc, ← List.append_assoc]
    exact h.append_right _
  | true =>
    show (xs ++ (_ ++ (io.rings true).inFlight)).Perm (ys ++ (_ ++ ring.inFlight))
    exact (List.perm_append_comm_assoc ..).trans
      ((h.append_left _).trans (List.perm_append_comm_assoc ..))

theorem mem_inFlight_of_ring {io : Io} (h : r ∈ (io.rings b).inFlight) : r ∈ io.inFlight := by
  cases b with
  | false => exact List.mem_append_left _ h
  | true => exact List.mem_append_right _ h

theorem mem_inFlight {io : Io} (h : .op r entry ∈ (io.rings b).kernel ++ (io.rings b).sq) :
    r ∈ io.inFlight := by
  refine mem_inFlight_of_ring (b := b) (List.mem_append_left _ ?_)
  rcases List.mem_append.mp h with h | h
  · exact List.mem_append_right _ (List.mem_filterMap.mpr ⟨_, h, rfl⟩)
  · exact List.mem_append_left _ (List.mem_filterMap.mpr ⟨_, h, rfl⟩)

theorem mem_inFlight_cq {io : Io} (h : cqe ∈ (io.rings b).cq) (hr : cqe.userData = some r) :
    r ∈ io.inFlight :=
  mem_inFlight_of_ring (List.mem_append_right _ (List.mem_filterMap.mpr ⟨cqe, h, hr⟩))

theorem pairwise_setRing {io : Io} (h : ∀ b, ((io.rings b).kernel ++ (io.rings b).sq).Pairwise R)
    (hring : (ring.kernel ++ ring.sq).Pairwise R) (b' : Bool) :
    (((io.setRing b ring).rings b').kernel ++ ((io.setRing b ring).rings b').sq).Pairwise R := by
  rw [rings_setRing]
  split
  · exact hring
  · exact h b'

theorem pairwise_submit {io : Io} (h : ∀ b, ((io.rings b).kernel ++ (io.rings b).sq).Pairwise R)
    (hnew : entries.Pairwise R)
    (hall : ∀ e ∈ (io.rings b).kernel ++ (io.rings b).sq, ∀ e' ∈ entries, R e e') (b' : Bool) :
    (((io.submit b entries).rings b').kernel ++
      ((io.submit b entries).rings b').sq).Pairwise R := by
  refine pairwise_setRing h ?_ b'
  rw [← List.append_assoc]
  exact List.pairwise_append.mpr ⟨h b, hnew, hall⟩

theorem inFlight_submit (io : Io) (b : Bool) (entries : List Sqe) :
    (entries.filterMap Sqe.userData ++ io.inFlight).Perm (io.submit b entries).inFlight := by
  have hring : (entries.filterMap Sqe.userData ++ (io.rings b).inFlight).Perm
      ([] ++ IoUring.inFlight
        ⟨(io.rings b).sq ++ entries, (io.rings b).kernel, (io.rings b).cq⟩) := by
    simp only [IoUring.inFlight, List.filterMap_append, List.append_assoc, List.nil_append]
    exact List.perm_append_comm_assoc ..
  exact inFlight_setRing _ [] hring

end Io

/-- What `process_completions` does with the first entry of the queue. -/
inductive Processed (held : List Ref) (io : Io) (b : Bool) : Io → Prop where
  | skipped (hcq : (io.rings b).cq = cqe :: cq) (hdata : cqe.userData = none) :
      Processed held io b (io.setCq b cq)
  | completed (hcq : (io.rings b).cq = cqe :: cq) (hdata : cqe.userData = some r)
      (hc : io.heap.get r.addr = some c) (hop : c.op = r.op)
      (hstate : c.state = .submitted canceled)
      (hresult : result = if cqe.result = .error .canceled ∧ canceled = false then .error .time
        else cqe.result)
      (hinv : Inv (r :: held) ((io.setCq b cq).setState r.addr (.completed result))) :
      Processed held io b
        (((io.setCq b cq).setState r.addr (.completed result)).returnCompletion r.addr)

namespace Inv

variable {held held' : List Ref} {io io' : Io} {r : Ref}

theorem new : Inv [] .new where
  owns := .empty
  cancels := fun _ => .nil
  placed := fun _ _ h => by cases h
  delivered := List.nodup_nil
  ended := fun _ _ h => by cases h
  past := fun _ h => by cases h
  named := fun _ h => by cases h
  faults := rfl

theorem perm (h : Inv held io) (hp : held.Perm held') : Inv held' io :=
  { h with owns := h.owns.perm hp (List.Perm.refl _) }

/-- A step that makes no operation and touches neither the queues nor the
record of results. -/
theorem later (h : Inv held io) (hheap : Later (fun _ => True) io.heap io'.heap)
    (hplaces : io'.places = io.places)
    (howns : Owns held' io'.inFlight io'.heap io'.completionPool)
    (hcancels : ∀ b, ((io'.rings b).kernel ++ (io'.rings b).sq).Pairwise CancelsOwn)
    (hdelivered : io'.delivered = io.delivered) (hnamed : io'.named = io.named)
    (hfaults : io'.faults = io.faults) : Inv held' io' where
  owns := howns
  cancels := hcancels
  placed := by
    intro a c' hc'
    obtain ⟨c, hc, hlc⟩ := hheap a c' hc'
    rw [hplaces, hlc.op]
    exact h.placed a c hc
  delivered := hdelivered ▸ h.delivered
  ended := by
    intro a c' hc' hmem
    obtain ⟨c, hc, hlc⟩ := hheap a c' hc'
    rw [hdelivered, hlc.op] at hmem
    have hrank := hlc.rank
    rw [h.ended a c hc hmem] at hrank
    exact CompletionState.eq_terminated hrank
  past := by
    intro o ho
    rw [hdelivered] at ho
    show o < io'.places.length
    rw [hplaces]
    exact h.past o ho
  named := hnamed ▸ h.named
  faults := hfaults.trans h.faults

theorem exists_get (h : Inv held io) (hr : r ∈ held) :
    ∃ c, io.heap.get r.addr = some c ∧ c.op = r.op :=
  h.owns.exists_get (List.mem_append_left _ hr)

theorem clone (h : Inv held io) (hr : r ∈ held) : Inv (r :: held) (io.clone r.addr) :=
  h.later (.clone _ _) rfl (h.owns.clone hr) h.cancels rfl rfl rfl

theorem dropRc (h : Inv (r :: held) io) : Inv held (io.dropRc r.addr) :=
  h.later (.drop _ _) rfl h.owns.drop h.cancels rfl rfl rfl

theorem returnCompletion (h : Inv (r :: held) io) : Inv held (io.returnCompletion r.addr) := by
  unfold Io.returnCompletion
  split
  · next hone => exact h.later (.refl _) rfl (h.owns.toPool hone.2) h.cancels rfl rfl rfl
  · exact h.dropRc

/-- A completion goes to a later state without the kernel. -/
theorem setState (h : Inv held io) (hrank : ∀ c, io.heap.get a = some c → c.state.rank ≤ state.rank)
    (hsub : ∀ c, io.heap.get a = some c → state.isSubmitted = c.state.isSubmitted) :
    Inv held (io.setState a state) :=
  h.later (.modify fun c hc => ⟨rfl, hrank c hc, fun _ => .inr trivial⟩) rfl
    (h.owns.modify (f := fun c => { c with state }) (fun _ => rfl) hsub) h.cancels rfl rfl rfl

/-! ## Cancellation -/

/-- The cancellation names the operation that its reference stands for. -/
theorem submitCancel (h : Inv held io) (hr : r ∈ held) (b : Bool) :
    Inv held (io.submit b [.asyncCancel r]) := by
  have hall : ∀ e ∈ (io.rings b).kernel ++ (io.rings b).sq, ∀ e' ∈ [Sqe.asyncCancel r],
      CancelsOwn e e' := by
    intro e he e' he'
    rw [List.mem_singleton] at he'
    subst he'
    cases e with
    | op q entry =>
      intro haddr
      obtain ⟨c, hc, hop⟩ := h.exists_get hr
      have hq := h.owns.own q (List.mem_append_right _ (Io.mem_inFlight he))
      rw [← hop, hq c (haddr ▸ hc)]
    | _ => trivial
  have hcancels := Io.pairwise_submit h.cancels (List.pairwise_singleton _ _) hall
  have hflight := Io.inFlight_submit io b [.asyncCancel r]
  exact h.later (.refl _) rfl (h.owns.perm (List.Perm.refl _) hflight) hcancels rfl rfl rfl

theorem cancel (h : Inv held io) (hr : r ∈ held) (cause : Cause) :
    Inv held (io.cancel r cause) := by
  have h₁ : Inv held { io with requests := (r.op, cause) :: io.requests } :=
    h.later (.refl _) rfl h.owns h.cancels rfl rfl rfl
  obtain ⟨c, hc, _⟩ := h.exists_get hr
  unfold Io.cancel
  simp only [hc]
  split
  · next hstate =>
    refine h₁.setState ?_ ?_ <;> intro c' hc' <;> cases hc.symm.trans hc' <;> rw [hstate]
    · exact Nat.zero_le _
    · rfl
  · next hstate =>
    refine submitCancel (h₁.setState ?_ ?_) hr _ <;> intro c' hc' <;>
      cases hc.symm.trans hc' <;> rw [hstate]
    · exact Nat.le_succ _
    · rfl
  · exact h₁

/-! ## The future -/

/-- The operation and its timeout are submitted with one more reference. -/
theorem submit (h : Inv (r :: held) io)
    (hidle : ∀ c, io.heap.get r.addr = some c → c.state.rank = 0)
    (hlink : ∀ e ∈ link, e = .linkTimeout r) (hone : link.length ≤ 1) :
    Inv held ((io.submit b (.op r entry :: link)).setState r.addr (.submitted false)) := by
  have hdata : link.filterMap Sqe.userData = [] := by
    rw [List.filterMap_eq_nil_iff]
    intro e he
    rw [hlink e he]
    rfl
  have hnew : (Sqe.op r entry :: link).Pairwise CancelsOwn := by
    match link, hone with
    | [], _ => exact List.pairwise_singleton _ _
    | [e], _ =>
      rw [hlink e (List.mem_singleton_self e)]
      simp [CancelsOwn]
  have hall : ∀ e ∈ (io.rings b).kernel ++ (io.rings b).sq, ∀ e' ∈ .op r entry :: link,
      CancelsOwn e e' := by
    intro e _ e' he'
    rcases List.mem_cons.mp he' with rfl | he'
    · cases e <;> trivial
    · rw [hlink e' he']
      cases e <;> trivial
  have howns : Owns held (r :: io.inFlight)
      (io.heap.modify r.addr fun c => { c with state := .submitted false }) io.completionPool := by
    refine h.owns.submit (fun c hc => ?_) (fun _ => rfl) fun _ => rfl
    have hrank := hidle c hc
    cases hstate : c.state with
    | submitted canceled =>
      rw [hstate] at hrank
      cases canceled <;> cases hrank
    | _ => rfl
  have hflight : (r :: io.inFlight).Perm (io.submit b (.op r entry :: link)).inFlight := by
    have hperm : ((r :: link.filterMap Sqe.userData) ++ io.inFlight).Perm _ :=
      Io.inFlight_submit io b (.op r entry :: link)
    rw [hdata] at hperm
    exact hperm
  have hheap : Later (fun _ => True) io.heap
      (io.heap.modify r.addr fun c => { c with state := .submitted false }) := by
    refine .modify fun c hc => ⟨rfl, ?_, nofun⟩
    rw [hidle c hc]
    exact Nat.zero_le _
  exact h.later hheap rfl (howns.perm (List.Perm.refl _) hflight)
    (Io.pairwise_submit h.cancels hnew hall) rfl rfl rfl

theorem finish (h : Inv held io) (hc : io.heap.get r.addr = some c)
    (hstate : c.state = .completed result) : Inv held (io.finish r.addr result) := by
  have howns : Owns held io.inFlight
      (io.heap.modify r.addr fun c => { c.takeFd with state := .terminated })
      io.completionPool := by
    refine h.owns.modify (fun c => ?_) fun c' hc' => ?_
    · show c.takeFd.op = c.op
      unfold Completion.takeFd
      split <;> rfl
    · cases hc.symm.trans hc'
      rw [hstate]
      rfl
  have hlater : io.Later (fun _ => True) [] (io.finish r.addr result) := .finish hc hstate
  exact h.later hlater.heap rfl howns h.cancels rfl rfl rfl

/-- A result that is delivered was not delivered before. -/
theorem deliver (h : Inv held io) (hr : r ∈ held) (hc : io.heap.get r.addr = some c)
    (hstate : c.state = .completed result) :
    Inv held { io.finish r.addr result with delivered := r.op :: io.delivered } := by
  have hop : c.op = r.op := h.owns.own r (List.mem_append_left _ hr) c hc
  have hplace : io.places[r.op]? = some r.addr := hop ▸ h.placed _ c hc
  have hfin := h.finish hc hstate
  refine { hfin with delivered := ?_, ended := ?_, past := ?_ }
  · refine List.nodup_cons.mpr ⟨fun hmem => ?_, h.delivered⟩
    rw [← hop] at hmem
    rw [h.ended _ c hc hmem] at hstate
    cases hstate
  · intro a c' hc' hmem
    rcases List.mem_cons.mp hmem with hmem | hmem
    · have hplace' := hfin.placed a c' hc'
      rw [hmem] at hplace'
      have haddr : a = r.addr := Option.some.inj (hplace'.symm.trans hplace)
      have hc'' : (io.heap.modify r.addr fun c => { c.takeFd with state := .terminated }).get
          a = some c' := hc'
      rw [RcHeap.get_modify, if_pos haddr] at hc''
      obtain ⟨_, _, rfl⟩ := Option.map_eq_some_iff.mp hc''
      rfl
    · exact hfin.ended a c' hc' hmem
  · intro o ho
    rcases List.mem_cons.mp ho with rfl | ho
    · exact (List.getElem?_eq_some_iff.mp hplace).1
    · exact h.past o ho

theorem poll (h : Inv (r :: held) io) (hp : io.poll aborted r = (io', result)) :
    Inv (if result.isReady then held else r :: held) io' := by
  obtain ⟨c, hc, _⟩ := h.exists_get (List.mem_cons_self ..)
  rw [Io.poll, hc] at hp
  dsimp only at hp
  split at hp
  · next entry timespec hstate =>
    split at hp
    · cases hp
      exact h
    · cases hp
      refine submit (h.clone (List.mem_cons_self ..)) (fun c' hc' => ?_) (fun e he => ?_) ?_
      · have hc'' : (io.heap.clone r.addr).get r.addr = some c' := hc'
        rw [RcHeap.get_clone] at hc''
        cases hc.symm.trans hc''
        rw [hstate]
        rfl
      · split at he
        · exact List.mem_singleton.mp he
        · cases he
      · split <;> simp
  · split at hp <;> cases hp <;> exact h
  · next result hstate =>
    cases hp
    exact returnCompletion (h.deliver (List.mem_cons_self ..) hc hstate)
  · cases hp
    exact h

theorem abandon (h : Inv (r :: held) io) : Inv held (io.abandon r) := by
  obtain ⟨c, hc, _⟩ := h.exists_get (List.mem_cons_self ..)
  unfold Io.abandon
  simp only [hc]
  split
  · next hstate => exact (h.finish hc hstate).dropRc
  · exact h.dropRc

/-! ## A new operation -/

/-- A pooled completion has no other reference. -/
theorem pooled_strongCount (h : Inv held io) (hpool : io.completionPool = a :: pool) :
    io.heap.strongCount a = 1 := by
  have howns := h.owns
  rw [hpool] at howns
  have hout : a ∉ (held ++ io.inFlight).map Ref.addr := by
    intro hmem
    obtain ⟨q, hq, rfl⟩ := List.mem_map.mp hmem
    exact howns.pooled q hq (List.mem_cons_self ..)
  have hnot : a ∉ pool := (List.nodup_cons.mp howns.distinct).1
  rw [howns.owned.count, List.count_append, List.count_eq_zero.mpr hout, List.count_cons_self,
    List.count_eq_zero.mpr hnot]

theorem made (h : Inv held io) (howns : Owns held' io'.inFlight io'.heap io'.completionPool)
    (hget : ∀ b c', io'.heap.get b = some c' → b = a ∧ c' = c ∨ io.heap.get b = some c')
    (hop : c.op = io.nextOp) (hrings : io'.rings = io.rings)
    (hplaces : io'.places = io.places ++ [a]) (hdelivered : io'.delivered = io.delivered)
    (hnamed : io'.named = io.named) (hfaults : io'.faults = io.faults) : Inv held' io' where
  owns := howns
  cancels := by
    rw [hrings]
    exact h.cancels
  placed := by
    intro b c' hc'
    rw [hplaces]
    rcases hget b c' hc' with ⟨rfl, rfl⟩ | hc'
    · rw [hop]
      exact List.getElem?_concat_length
    · have hplace := h.placed b c' hc'
      rw [List.getElem?_append_left (List.getElem?_eq_some_iff.mp hplace).1]
      exact hplace
  delivered := hdelivered ▸ h.delivered
  ended := by
    intro b c' hc' hmem
    rw [hdelivered] at hmem
    rcases hget b c' hc' with ⟨rfl, rfl⟩ | hc'
    · rw [hop] at hmem
      exact absurd (h.past _ hmem) (Nat.lt_irrefl _)
    · exact h.ended b c' hc' hmem
  past := by
    intro o ho
    rw [hdelivered] at ho
    have hlt := h.past o ho
    show o < io'.places.length
    rw [hplaces, List.length_append]
    exact Nat.lt_add_right _ hlt
  named := hnamed ▸ h.named
  faults := hfaults.trans h.faults

theorem newCompletion (h : Inv held io) (hfree : io.heap.cell fresh = none)
    (hop : c.op = io.nextOp) (hidle : c.state.isSubmitted = false) :
    ∃ a, (io.newCompletion fresh c).2 = some a ∧
      Inv (⟨a, io.nextOp⟩ :: held) (io.newCompletion fresh c).1 := by
  unfold Io.newCompletion
  split
  · next a pool hpool =>
    rw [if_pos (h.pooled_strongCount hpool)]
    have howns := h.owns
    rw [hpool] at howns
    exact ⟨a, rfl, h.made (a := a) (c := c) (hop ▸ howns.reuse hidle)
      (fun b _ => RcHeap.cases_overwrite _ _ b) hop rfl rfl rfl rfl rfl⟩
  · next hpool =>
    have howns := h.owns.alloc hfree hidle
    rw [hop] at howns
    exact ⟨fresh, rfl, h.made (a := fresh) (c := c) howns (fun b _ => RcHeap.cases_alloc _ _ b) hop
      rfl rfl rfl rfl rfl⟩

/-! ## The kernel -/

/-- A step of the kernel keeps the references in flight and the order of the
queue. -/
theorem setRing (h : Inv held io) (hflight : (io.rings b).inFlight.Perm ring.inFlight)
    (hcancels : (ring.kernel ++ ring.sq).Pairwise CancelsOwn) : Inv held (io.setRing b ring) := by
  have hall := Io.inFlight_setRing [] [] hflight
  exact h.later (.refl _) rfl (h.owns.perm (List.Perm.refl _) hall)
    (Io.pairwise_setRing h.cancels hcancels) rfl rfl rfl

theorem take (h : Inv held io) (ht : io.take b = some io') : Inv held io' := by
  rw [Io.take] at ht
  split at ht
  · cases ht
  · next e sq hsq =>
    have hqueue := h.cancels b
    rw [hsq] at hqueue
    have h₁ : Inv held (io.setRing b ⟨sq, (io.rings b).kernel ++ [e], (io.rings b).cq⟩) := by
      refine h.setRing ?_ ?_
      · have hperm : ((io.rings b).sq ++ (io.rings b).kernel).Perm
            (sq ++ ((io.rings b).kernel ++ [e])) := by
          rw [hsq, ← List.append_assoc]
          exact (List.perm_append_singleton e _).symm
        have hdata := hperm.filterMap Sqe.userData
        rw [List.filterMap_append, List.filterMap_append] at hdata
        exact hdata.append_right _
      · rw [List.append_assoc]
        exact hqueue
    split at ht
    · next r =>
      cases ht
      refine { h₁ with named := fun p hp => ?_ }
      rcases List.mem_append.mp hp with hp | hp
      · -- what the cancellation finds is in front of it
        obtain ⟨o, ho, rfl⟩ := List.mem_map.mp hp
        obtain ⟨q, hq, rfl⟩ := List.mem_map.mp ho
        obtain ⟨hq, haddr⟩ := List.mem_filter.mp hq
        obtain ⟨e', he', hdata⟩ := List.mem_filterMap.mp hq
        have hown := (List.pairwise_append.mp hqueue).2.2 e' he' _ (List.mem_cons_self ..)
        cases e' with
        | op q' entry =>
          cases hdata
          exact (hown (by simpa using haddr)).symm
        | _ => cases hdata
      · exact h.named p hp
    · cases ht
      exact h₁

theorem post (h : Inv held io) (hp : io.post b i result = some io') : Inv held io' := by
  rw [Io.post] at hp
  split at hp
  · cases hp
  · next e he =>
    have h₁ : Inv held (io.setRing b ⟨(io.rings b).sq, (io.rings b).kernel.eraseIdx i,
        (io.rings b).cq ++ [⟨e.userData, result⟩]⟩) := by
      refine h.setRing ?_ ((h.cancels b).sublist ((List.eraseIdx_sublist ..).append_right _))
      have hperm := (perm_cons_eraseIdx he).filterMap Sqe.userData
      simp only [IoUring.inFlight, List.append_assoc, List.filterMap_append]
      refine List.Perm.append_left _ ((hperm.append_right _).trans ?_)
      cases hdata : e.userData with
      | none => simp [hdata]
      | some r =>
        simp only [List.filterMap_cons, hdata, List.filterMap_nil, List.cons_append]
        rw [← List.append_assoc]
        exact (List.perm_append_singleton r _).symm
    split at hp
    · split at hp
      · cases hp
        exact h₁
      · cases hp
        exact h₁.later (.refl _) rfl h₁.owns h₁.cancels rfl rfl rfl
    · cases hp
      exact h₁

/-- The completion queue: the completion is submitted, so no arm panics. -/
theorem processed (h : Inv held io) (hp : io.processCompletion b = some io') :
    Processed held io b io' := by
  rw [Io.processCompletion] at hp
  split at hp
  · cases hp
  · next cqe cq hcq =>
    dsimp only at hp
    split at hp
    · next hdata =>
      cases hp
      exact .skipped hcq hdata
    · next r hdata =>
      have hflight : io.inFlight.Perm (r :: (io.setCq b cq).inFlight) := by
        refine Io.inFlight_setRing [] [r] ?_
        simp only [IoUring.inFlight, hcq, List.filterMap_cons, hdata, List.nil_append]
        exact List.perm_middle
      have howns := h.owns.perm (List.Perm.refl held) hflight
      have hr : r ∈ held ++ r :: (io.setCq b cq).inFlight := by simp
      obtain ⟨c, hc, hop⟩ := howns.exists_get hr
      have hsub := howns.flight_submitted (List.mem_cons_self ..) hc
      have hc' : (io.setCq b cq).heap.get r.addr = some c := hc
      rw [hc'] at hp
      dsimp only at hp
      split at hp
      · next hstate => rw [hstate] at hsub; cases hsub
      · next canceled hstate =>
        cases hp
        refine .completed hcq hdata hc hop hstate rfl (h.later
          (.modify fun c' hc' => ⟨rfl, ?_, fun _ => .inr trivial⟩) rfl
          (howns.complete (f := fun c => { c with state := .completed _ })
            (fun _ => rfl) fun _ => rfl)
          (Io.pairwise_setRing h.cancels (h.cancels b)) rfl rfl rfl)
        cases hc.symm.trans hc'
        rw [hstate]
        show _ ≤ 3
        cases canceled <;> decide
      · next hidle hsubmitted =>
        cases hstate : c.state with
        | submitted canceled => exact absurd hstate (hsubmitted canceled)
        | _ => rw [hstate] at hsub; cases hsub

theorem processCompletion (h : Inv held io) (hp : io.processCompletion b = some io') :
    Inv held io' := by
  cases h.processed hp with
  | skipped hcq hdata =>
    refine h.setRing ?_ (h.cancels b)
    simp [IoUring.inFlight, hcq, hdata]
  | completed _ _ _ _ _ _ hinv => exact hinv.returnCompletion

end Inv

end Kimojio.Ring
