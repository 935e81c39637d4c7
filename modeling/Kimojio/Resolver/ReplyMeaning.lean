import Kimojio.Resolver.Addresses
import Kimojio.Resolver.ReplySession

/-!
# Kimojio.Resolver.ReplyMeaning

What `decode_varlink_reply` makes of the tree of a reply.

A reply that is read to its end and answers gives its address items and
whether it has an `error` member (`answer`). The visitor converts the
addresses one after the other and stops at the first that cannot be
converted, and everything that goes wrong is a `Protocol` error, so that the
result is a function of the answer alone (`decodeVarlinkReply_answer`).
-/

namespace Kimojio.Resolver

open Json Rfc8259
open Reading (Silent collect report)
open ResolveHostnameReply (Live pending)

/-! ## a whole call with any visitor -/

/-- Passes items to the visitor until one call stops the decode. -/
def ReplyVisitor.feed (v : ReplyVisitor σ Out) : List Item → σ → Option Out × σ
  | [], s => (none, s)
  | i :: items, s =>
    match v.call i s with
    | (some out, s') => (some out, s')
    | (none, s') => v.feed items s'

/-- What the visitor takes is what it is passed. -/
theorem ReplyVisitor.Takes.feed_eq {v : ReplyVisitor σ Out} (h : v.Takes s items out s')
    (hmore : out = none → more = []) : v.feed (items ++ more) s = (out, s') := by
  induction h with
  | nil =>
    rw [hmore rfl]
    rfl
  | stop hcall => simp only [List.cons_append, ReplyVisitor.feed, hcall]
  | cons hcall _ ih =>
    simp only [List.cons_append, ReplyVisitor.feed, hcall]
    exact ih hmore

/-- A call passes to the visitor what is pending, until it stops the decode or
the call gives the verdict. -/
theorem ResolveHostnameReply.Live.feed_eq (h : Live r) (v : ReplyVisitor σ Out)
    (hdrive : r.drive v s = (result, r', s')) :
    (∃ out, v.feed r.pending.1 s = (some out, s') ∧ result = .ok (some out)) ∨
      (v.feed r.pending.1 s = (none, s') ∧
        (ReplyOutcome.ofResult result).verdict = some r.pending.2) := by
  obtain ⟨items, ⟨out, rfl, htakes, -, hpending⟩ | ⟨verdict, htakes, -, hverdict, hpending⟩⟩ :=
    h.drive v hdrive
  · rw [hpending]
    exact .inl ⟨out, htakes.feed_eq (by simp), rfl⟩
  · rw [hpending, ← items.append_nil]
    exact .inr ⟨htakes.feed_eq fun _ => rfl, hverdict⟩

/-! ## the addresses that the visitor collects -/

/-- An address that is reported. -/
def asAddress : Effect → Option ResolvedAddress
  | .item (.address address) => some address
  | _ => none

/-- A Varlink method error that is reported. -/
def asError : Effect → Option Str
  | .item (.error name) => some name
  | _ => none

/-- The addresses with their port, up to the first that has none. -/
def convert (port : UInt16) : List ResolvedAddress → Except ResolveError (List SocketAddr)
  | [] => .ok []
  | address :: addresses => do
    let socket ← socketAddress address port
    let sockets ← convert port addresses
    return socket :: sockets

theorem convert_cons_ok : convert port (address :: addresses) = .ok sockets ↔
      ∃ socket rest, socketAddress address port = .ok socket ∧ convert port addresses = .ok rest ∧
        sockets = socket :: rest := by
  rw [convert]
  cases hsocket : socketAddress address port with
  | error e => simp [bind, Except.bind]
  | ok socket =>
    cases hrest : convert port addresses with
    | error e => simp [bind, Except.bind]
    | ok rest => simp [bind, Except.bind, pure, Except.pure, eq_comm]

theorem convert_cons_error :
    convert port (address :: addresses) = .error e ↔ socketAddress address port = .error e ∨
      (∃ socket, socketAddress address port = .ok socket) ∧ convert port addresses = .error e := by
  rw [convert]
  cases hsocket : socketAddress address port with
  | error e => simp [bind, Except.bind]
  | ok socket =>
    cases hrest : convert port addresses with
    | error e => simp [bind, Except.bind]
    | ok rest => simp [bind, Except.bind, pure, Except.pure]

/-- The first address that cannot be converted stops the decode. -/
theorem feed_of_error (h : convert c.port (effects.filterMap asAddress) = .error e) :
    (CollectAddresses.visitor.feed (itemsOf effects) c).1 = some e := by
  induction effects generalizing c with
  | nil => cases h
  | cons effect effects ih =>
    cases effect with
    | quiet | violation => exact ih h
    | item i =>
      cases i with
      | error _ | name _ | escapeName _ | flags _ => exact ih h
      | address address =>
        show (CollectAddresses.visitor.feed (.address address :: itemsOf effects) c).1 = _
        simp only [ReplyVisitor.feed, ReplyVisitor.call, CollectAddresses.visitor]
        obtain hsocket | ⟨⟨socket, hsocket⟩, hrest⟩ := convert_cons_error.mp h
        · rw [hsocket]
        · rw [hsocket]
          exact ih hrest

/-- Where every address is converted, the decode goes on to its end. -/
theorem feed_of_ok (h : convert c.port (effects.filterMap asAddress) = .ok sockets) :
    CollectAddresses.visitor.feed (itemsOf effects) c = (none, ⟨c.addresses ++ sockets, c.port,
        c.methodError || !(effects.filterMap asError).isEmpty⟩) := by
  induction effects generalizing c sockets with
  | nil =>
    cases h
    show (none, c) = (none, _)
    simp
  | cons effect effects ih =>
    cases effect with
    | quiet | violation => exact ih h
    | item i =>
      cases i with
      | name _ | escapeName _ | flags _ => exact ih h
      | error name =>
        refine Eq.trans (ih (c := { c with methodError := true }) h) ?_
        simp [asError]
      | address address =>
        obtain ⟨socket, rest, hsocket, hrest, rfl⟩ := convert_cons_ok.mp h
        show CollectAddresses.visitor.feed (.address address :: itemsOf effects) c = _
        simp only [ReplyVisitor.feed, ReplyVisitor.call, CollectAddresses.visitor]
        rw [hsocket]
        refine Eq.trans (ih (c := { c with addresses := c.addresses ++ [socket] }) hrest) ?_
        simp only [List.append_assoc, List.singleton_append]
        rfl

/-- Every failed conversion is a `Protocol` error. -/
theorem socketAddress_error (h : socketAddress address port = .error e) :
    ∃ detail, e = .protocol detail := by
  unfold socketAddress at h
  split at h
  · split at h <;> cases h
    exact ⟨_, rfl⟩
  split at h
  · split at h
    · cases h
      exact ⟨_, rfl⟩
    · split at h <;> cases h
      exact ⟨_, rfl⟩
  · cases h
    exact ⟨_, rfl⟩

theorem convert_error (h : convert port addresses = .error e) : ∃ detail, e = .protocol detail := by
  induction addresses with
  | nil => cases h
  | cons address addresses ih =>
    obtain hsocket | ⟨-, hrest⟩ := convert_cons_error.mp h
    · exact socketAddress_error hsocket
    · exact ih hrest

/-! ## the result as a function of the tree -/

/-- What a reply answers: whether it has an error, and its addresses. -/
def answer (v : Value) : Option (Bool × List ResolvedAddress) :=
  match (readReply v).result with
  | some seen =>
    if seen.answered then
      some (!((readReply v).collect asError).isEmpty, (readReply v).collect asAddress)
    else none
  | none => none

/-- The result for an answer, without the detail of a `Protocol` error. -/
def resultOf (host : Str) (port : UInt16) :
    Option (Bool × List ResolvedAddress) → Except ResolveError (List SocketAddr)
  | none => .error (.protocol [])
  | some (failed, addresses) =>
    match convert port addresses with
    | .error _ => .error (.protocol [])
    | .ok sockets =>
      if failed || sockets.isEmpty then .error (.hostNotFound host) else .ok sockets

/-- A result without the detail of a `Protocol` error. -/
def withoutDetail : Except ResolveError α → Except ResolveError α
  | .error (.protocol _) => .error (.protocol [])
  | r => r

theorem withoutDetail_found (host : Str) (failed : Bool) (sockets : List SocketAddr) :
    withoutDetail (if failed || sockets.isEmpty then .error (.hostNotFound host) else .ok sockets) =
      if failed || sockets.isEmpty then .error (.hostNotFound host) else .ok sockets := by
  split <;> rfl

theorem answer_of_ok (h : judge (readReply v).events
      (requireAnswer ((readReply v).result.any Seen.answered)) = .ok ()) :
    answer v =
      some (!((readReply v).collect asError).isEmpty, (readReply v).collect asAddress) := by
  obtain ⟨seen, hseen, hanswered⟩ := (judge_readReply_ok v).mp h
  rw [answer, hseen]
  exact if_pos hanswered

theorem answer_of_error (h : judge (readReply v).events
      (requireAnswer ((readReply v).result.any Seen.answered)) = .error kind) :
    answer v = none := by
  unfold answer
  split
  · next seen hseen =>
    refine if_neg fun hanswered => ?_
    rw [(judge_readReply_ok v).mpr ⟨seen, hseen, hanswered⟩] at h
    cases h
  · rfl

/-- An answer whose addresses cannot all be converted. -/
theorem resultOf_of_error (h : convert port ((readReply v).collect asAddress) = .error e)
    (host : Str) : resultOf host port (answer v) = .error (.protocol []) := by
  cases hjudge : judge (readReply v).events
      (requireAnswer ((readReply v).result.any Seen.answered)) with
  | ok _ =>
    rw [answer_of_ok hjudge, resultOf, h]
  | error kind =>
    rw [answer_of_error hjudge]
    rfl

/-- **The result is that of the answer**, for every reply that is JSON and not
too long. -/
theorem decodeVarlinkReply_answer {text : Str} (h : JsonText v text)
    (hlength : text.bytes.length ≤ maxVarlinkReplySize) (host : Str) (port : UInt16) :
    withoutDetail (decodeVarlinkReply text.bytes host port) = resultOf host port (answer v) := by
  have hlive : Live (.new text) := ⟨rfl, rfl⟩
  rw [decodeVarlinkReply, if_neg (by omega), Str.fromUtf8_bytes]
  dsimp only
  rcases hdrive : (ResolveHostnameReply.new text).drive CollectAddresses.visitor ⟨[], port, false⟩
    with ⟨result, reply, c⟩
  have hends := hlive.feed_eq _ hdrive
  rw [(Reference.json h).pending_new] at hends
  cases hconvert : convert port ((readReply v).collect asAddress) with
  | error e =>
    -- the visitor has stopped the decode, or the schema has before
    rw [resultOf_of_error hconvert]
    have hfeed := feed_of_error (c := ⟨[], port, false⟩) hconvert
    obtain ⟨out, hout, rfl⟩ | ⟨hnone, -⟩ := hends
    · rw [hout] at hfeed
      obtain ⟨detail, rfl⟩ := convert_error hconvert
      cases hfeed
      rfl
    · rw [hnone] at hfeed
      cases hfeed
  | ok sockets =>
    have hfeed := feed_of_ok (c := ⟨[], port, false⟩) hconvert
    obtain ⟨out, hout, -⟩ | ⟨hnone, hverdict⟩ := hends
    · rw [hfeed] at hout
      cases hout
    · rw [hfeed] at hnone
      cases hnone
      cases hjudge : judge (readReply v).events
          (requireAnswer ((readReply v).result.any Seen.answered)) with
      | ok _ =>
        rw [hjudge] at hverdict
        rw [answer_of_ok hjudge, resultOf, hconvert]
        obtain e | _ | out := result
        · cases hverdict
        · exact withoutDetail_found host (!((readReply v).collect asError).isEmpty) sockets
        · cases hverdict
      | error kind =>
        rw [hjudge] at hverdict
        rw [answer_of_error hjudge]
        obtain e | _ | out := result
        · rfl
        · cases hverdict
        · cases hverdict

/-! ## what each level reports -/

section

variable {p : Effect → Option γ}

/-- Only addresses and errors are selected. -/
structure SelectsItems (p : Effect → Option γ) : Prop where
  quiet : p .quiet = none
  violation : ∀ kind, p (.violation kind) = none
  name : ∀ body, p (.item (.name body)) = none
  escapeName : ∀ body, p (.item (.escapeName body)) = none
  flags : ∀ n, p (.item (.flags n)) = none

theorem silent_report (h : p e = none) : (report e).Silent p := by
  intro e' he'
  rw [List.mem_singleton.mp he']
  exact h

theorem SelectsItems.accept (h : SelectsItems p) : accept.Silent p := silent_report h.quiet

theorem SelectsItems.violate (h : SelectsItems p) (kind : ReplyErrorKind) :
    (violate kind : Read α).Silent p := by
  intro e he
  rw [List.mem_singleton.mp he]
  exact h.violation kind

theorem SelectsItems.scalar (h : SelectsItems p) (r : Except ReplyErrorKind α)
    (heffect : ∀ a, p (effect a) = none) : (scalar r effect).Silent p := by
  cases r with
  | error kind => exact h.violate kind
  | ok a => exact .bind (silent_report (heffect a)) fun _ => .pure a

theorem SelectsItems.openAt (h : SelectsItems p) (depth : Nat) : (openAt depth).Silent p := by
  unfold Resolver.openAt
  split
  · exact h.accept
  · exact h.violate _

mutual
theorem SelectsItems.skip (h : SelectsItems p) (depth : Nat) (v : Value) :
    (skip depth v).Silent p := by
  match v with
  | .null | .boolean _ | .number _ | .string _ =>
    exact h.accept
  | .array vs =>
    exact .bind (h.openAt depth) fun _ => .bind (h.skipElements _ vs) fun _ => h.accept
  | .object ms =>
    exact .bind (h.openAt depth) fun _ => .bind (h.skipMembers _ ms) fun _ => h.accept

theorem SelectsItems.skipElements (h : SelectsItems p) (depth : Nat) (vs : List Value) :
    (skipElements depth vs).Silent p := by
  match vs with
  | [] => exact .pure ()
  | v :: vs =>
    exact .bind (h.skip depth v) fun _ => h.skipElements depth vs

theorem SelectsItems.skipMembers (h : SelectsItems p) (depth : Nat)
    (ms : List (List Char × Value)) : (skipMembers depth ms).Silent p := by
  match ms with
  | [] => exact .pure ()
  | (_, v) :: ms =>
    exact .bind h.accept fun _ => .bind (h.skip depth v) fun _ => h.skipMembers depth ms
end

theorem SelectsItems.readOctet (h : SelectsItems p) (octets : List UInt8) (v : Value) :
    (readOctet octets v).Silent p := by
  cases v with
  | number text =>
    rw [Resolver.readOctet]
    split
    · exact .bind (h.scalar _ fun _ => h.quiet) fun _ => .pure _
    · exact h.violate _
  | null | boolean | string | array | object => exact h.violate _

theorem SelectsItems.readAddress (h : SelectsItems p) (v : Value) : (readAddress v).Silent p := by
  cases v with
  | array vs =>
    exact .bind h.accept fun _ => .bind (.foldlM h.readOctet vs []) fun _ =>
      .bind h.accept fun _ => .pure _
  | null | boolean | string | number | object => exact h.violate _

theorem SelectsItems.readEntryMember (h : SelectsItems p) (entry : Entry)
    (m : List Char × Value) : (readEntryMember entry m).Silent p := by
  refine .bind h.accept fun _ => ?_
  split
  · exact .bind (h.scalar _ fun _ => h.quiet) fun _ => .pure _
  split
  · exact .bind (h.scalar _ fun _ => h.quiet) fun _ => .pure _
  split
  · exact .bind (h.readAddress _) fun _ => .pure _
  · exact .bind (h.skip _ _) fun _ => .pure _

theorem SelectsItems.readName (h : SelectsItems p) (v : Value) : (readName v).Silent p := by
  cases v with
  | string body =>
    refine silent_report ?_
    split
    · exact h.escapeName _
    · exact h.name body
  | null | boolean | array | number | object => exact h.violate _

/-! ### address entries -/

/-- What an entry declares, as it is read. -/
def entryOf (ms : List (List Char × Value)) : Option Entry :=
  (ms.foldlM readEntryMember {}).result

/-- The addresses of an element of `addresses`: one, if the entry is complete. -/
def entryAddresses : Value → List ResolvedAddress
  | .object ms =>
    match entryOf ms with
    | some ⟨ifindex, some family, some octets⟩ =>
      [resolvedAddress (ifindex.getD 0) family octets]
    | _ => []
  | _ => []

/-- The addresses of the value of `parameters.addresses`. -/
def listAddresses : Value → List ResolvedAddress
  | .array vs => vs.flatMap entryAddresses
  | _ => []

/-- The addresses of the value of `parameters`. -/
def parametersAddresses : Value → List ResolvedAddress
  | .object ps => ps.flatMap fun p => if named p.1 "addresses".toList then listAddresses p.2 else []
  | _ => []

/-- The addresses of a reply. -/
def replyAddresses : Value → List ResolvedAddress
  | .object ms =>
    ms.flatMap fun m => if named m.1 "parameters".toList then parametersAddresses m.2 else []
  | _ => []

/-- The error that the value of `error` names. -/
def errorNames : Value → List Str
  | .string body => [body]
  | _ => []

/-- What is selected of some addresses. -/
def selected (p : Effect → Option γ) (addresses : List ResolvedAddress) : List γ :=
  addresses.filterMap fun address => p (.item (.address address))

/-- What is selected of a member of the reply. -/
def selectedOf (p : Effect → Option γ) (m : List Char × Value) : List γ :=
  if named m.1 "error".toList then (errorNames m.2).filterMap fun name => p (.item (.error name))
  else if named m.1 "parameters".toList then selected p (parametersAddresses m.2)
  else []

theorem collect_readError (h : (readError v).result = some u) :
    (readError v).collect p = (errorNames v).filterMap fun name => p (.item (.error name)) := by
  cases v with
  | string body =>
    rw [readError] at h ⊢
    split at h
    · cases h
    · next hplain =>
      rw [if_neg hplain]
      rfl
  | null | boolean | array | number | object => cases h

section

variable (hp : SelectsItems p)
include hp

theorem collect_readEntry (h : (readEntry v).result.isSome) :
    (readEntry v).collect p = selected p (entryAddresses v) := by
  cases v with
  | object ms =>
    have hquiet : ∀ a, (ms.foldlM readEntryMember a).collect p = [] :=
      fun a => (Silent.foldlM hp.readEntryMember ms a).collect_eq
    rw [readEntry, result_accept_bind, Reading.result_bind] at h
    cases hentry : (ms.foldlM readEntryMember {}).result with
    | none =>
      rw [hentry] at h
      cases h
    | some entry =>
      rw [hentry] at h
      rw [readEntry, Reading.collect_bind (a := ()) rfl, Reading.collect_bind hentry, hquiet,
        hp.accept.collect_eq, entryAddresses, entryOf, hentry]
      obtain ⟨ifindex, family, octets⟩ := entry
      cases family with
      | none => cases h
      | some family =>
        cases octets with
        | none => cases h
        | some octets => rfl
  | null | boolean | string | number | array => cases h

theorem collect_readAddresses (h : (readAddresses v).result.isSome) :
    (readAddresses v).collect p = selected p (listAddresses v) := by
  cases v with
  | array vs =>
    rw [readAddresses, result_accept_bind, Reading.result_bind] at h
    cases hfold : (vs.foldlM (fun _ v => readEntry v) ()).result with
    | none =>
      rw [hfold] at h
      cases h
    | some _ =>
      have hentry : ∀ v ∈ vs, ∀ _ u : Unit, (readEntry v).result = some u → _ :=
        fun v _ _ _ hv => collect_readEntry hp (by rw [hv]; rfl)
      rw [readAddresses, Reading.collect_bind (a := ()) rfl, Reading.collect_bind hfold,
        Reading.foldlM_collect hentry hfold, hp.accept.collect_eq, List.append_nil,
        List.nil_append, listAddresses, selected, List.filterMap_flatMap]
      rfl
  | null | boolean | string | number | object => cases h

/-- Nothing is selected of the start and the end of a container. -/
theorem collect_container (h : x.result = some a) :
    (accept >>= fun _ => x >>= fun a => accept >>= fun _ => pure a).collect p =
      x.collect p := by
  rw [Reading.collect_bind (a := ()) rfl, Reading.collect_bind h, hp.accept.collect_eq,
    (Silent.bind hp.accept fun _ => .pure a).collect_eq, List.append_nil, List.nil_append]

theorem collect_readParametersMember (h : (readParametersMember seen m).result = some seen') :
    (readParametersMember seen m).collect p =
      selected p (if named m.1 "addresses".toList then listAddresses m.2 else []) := by
  rw [readParametersMember, result_accept_bind] at h
  rw [readParametersMember, Reading.collect_bind (a := ()) rfl, hp.accept.collect_eq]
  split
  · next hname =>
    rw [if_pos hname] at h
    obtain ⟨_, hread, -⟩ := result_bind_pure h
    rw [Reading.collect_bind hread, collect_readAddresses hp (by rw [hread]; rfl)]
    exact List.append_nil _
  · refine Silent.collect_eq (p := p) ?_
    split
    · exact .bind (hp.readName m.2) fun _ => .pure _
    split
    · exact .bind (hp.scalar _ hp.flags) fun _ => .pure _
    · exact .bind (hp.skip _ _) fun _ => .pure _

theorem collect_readParameters (h : (readParameters seen v).result = some seen') :
    (readParameters seen v).collect p = selected p (parametersAddresses v) := by
  cases v with
  | object ps =>
    rw [readParameters, result_container] at h
    have hmember : ∀ m ∈ ps, ∀ s s' : Seen, (readParametersMember s m).result = some s' → _ :=
      fun m _ s s' => collect_readParametersMember hp
    rw [readParameters, collect_container hp h, Reading.foldlM_collect hmember h,
      parametersAddresses, selected, List.filterMap_flatMap]
    rfl
  | null | boolean | string | number | array => cases h

theorem collect_readReplyMember (h : (readReplyMember seen m).result = some seen') :
    (readReplyMember seen m).collect p = selectedOf p m := by
  rw [readReplyMember, result_accept_bind] at h
  rw [readReplyMember, Reading.collect_bind (a := ()) rfl, hp.accept.collect_eq, selectedOf]
  split
  · next hname =>
    rw [if_pos hname] at h
    obtain ⟨_, hread, -⟩ := result_bind_pure h
    rw [Reading.collect_bind hread, collect_readError hread]
    exact List.append_nil _
  next hname =>
    rw [if_neg hname] at h
    split
    · next hparameters =>
      rw [if_pos hparameters] at h
      exact collect_readParameters hp h
    · exact (Silent.bind (hp.skip 1 m.2) fun _ => .pure seen).collect_eq

/-- What is selected of a reply that is read to its end. -/
theorem collect_readReply (h : (readReply (.object ms)).result = some seen) :
    (readReply (.object ms)).collect p = ms.flatMap (selectedOf p) := by
  rw [readReply, result_container] at h
  have hmember : ∀ m ∈ ms, ∀ s s' : Seen, (readReplyMember s m).result = some s' → _ :=
    fun m _ s s' => collect_readReplyMember hp
  rw [readReply, collect_container hp h, Reading.foldlM_collect hmember h]

end

end

/-- The addresses of a reply that is read to its end. -/
theorem collect_address (hv : Valid v) (h : (readReply v).result = some seen) :
    (readReply v).collect asAddress = replyAddresses v := by
  cases v with
  | object ms =>
    rw [collect_readReply ⟨rfl, fun _ => rfl, fun _ => rfl, fun _ => rfl, fun _ => rfl⟩ h,
      replyAddresses, List.flatMap_def, List.flatMap_def]
    refine congrArg List.flatten (List.map_congr_left fun m hm => ?_)
    unfold selectedOf
    split
    · next hname =>
      have hm := (hv.member hm).1
      rw [if_neg fun hparameters => absurd
        (((named_iff hm _).mp hname).unique ((named_iff hm _).mp hparameters)) (by decide)]
      exact List.filterMap_eq_nil_iff.mpr fun _ _ => rfl
    split
    · exact List.filterMap_some
    · rfl
  | null | boolean | string | number | array => cases h

/-- A reply that is read to its end reports an error exactly when it has an
`error` member. -/
theorem isEmpty_collect_error (hv : Valid (.object ms))
    (h : (readReply (.object ms)).result = some seen) :
    ((readReply (.object ms)).collect asError).isEmpty = false ↔ ∃ m ∈ ms, Named m.1 "error" := by
  obtain ⟨⟨ms', hms, hmembers⟩, -⟩ := (isSome_readReply hv).mp (by rw [h]; rfl)
  cases hms
  rw [collect_readReply ⟨rfl, fun _ => rfl, fun _ => rfl, fun _ => rfl, fun _ => rfl⟩ h,
    List.isEmpty_eq_false_iff, ne_eq, List.flatMap_eq_nil_iff]
  constructor
  · intro hsome
    refine Classical.byContradiction fun hnone => hsome fun m hm => ?_
    have hname : ¬ named m.1 "error".toList = true := fun hname =>
      hnone ⟨m, hm, (named_iff (hv.member hm).1 _).mp hname⟩
    rw [selectedOf, if_neg hname]
    split
    · exact List.filterMap_eq_nil_iff.mpr fun _ _ => rfl
    · rfl
  · rintro ⟨m, hm, hname⟩ hnil
    obtain ⟨body, hbody, -⟩ := (hmembers m hm).error hname
    have hnames := hnil m hm
    rw [selectedOf, if_pos ((named_iff (hv.member hm).1 _).mpr hname), hbody] at hnames
    cases hnames

end Kimojio.Resolver
