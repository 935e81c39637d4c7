import Kimojio.Resolver.Exchange

/-!
# Kimojio.Resolver.OwnReply

Whose reply a call decodes.

In the runs in which no call is dropped inside `exchange_varlink`, an answer is
always decoded from the reply to the call's own request
(`answersOwn_of_keepsExchange`). The invariant follows the one call that has
the lock: the socket of the connection is quiet, is being written to, or owes
exactly the reply that this call reads (`Stage`).

A call that is dropped inside the exchange leaves the connection in the state,
with its reply still to come; the next call reads it (`exists_not_answersOwn`).
-/

namespace Kimojio.Resolver

open Json Rfc8259
open VarlinkConnection (takeFrame copyOut readSize readFrame resumeReadFrame)

/-! ## reading a frame -/

def tooLong : ExchangeError := .response (protocolError "reply exceeded the 65536-byte limit")

/-- What is done with the reply buffer before a read. -/
inductive Taken (c : VarlinkConnection) :
    Option (Except ExchangeError (List UInt8) × VarlinkConnection) → Prop where
  | frame : c.input = frame ++ 0 :: rest → 0 ∉ frame →
      Taken c (some (.ok frame, { c with input := rest }))
  | tooLong : 0 ∉ c.input.take (maxVarlinkReplySize + 1) → maxVarlinkReplySize < c.input.length →
      Taken c (some (.error tooLong, { c with input := [] }))
  | none : 0 ∉ c.input → c.input.length ≤ maxVarlinkReplySize → Taken c none

theorem takeFrame_taken (c : VarlinkConnection) : Taken c c.takeFrame := by
  unfold takeFrame
  split
  · next terminator hidx =>
    obtain ⟨hlt, hzero, hbefore⟩ := List.findIdx?_eq_some_iff_getElem.mp hidx
    rw [decide_eq_true_eq] at hzero
    have hfront : ∀ n ≤ terminator, 0 ∉ c.input.take n := by
      intro n hn hmem
      obtain ⟨j, hj, hj0⟩ := List.mem_take_iff_getElem.mp hmem
      exact hbefore j (by omega) (by simpa using hj0)
    dsimp only
    split
    · next hlong => exact .tooLong (hfront _ hlong) (by omega)
    · -- the frame ends with the NUL byte that was found
      rw [List.take_succ_eq_append_getElem hlt, hzero, List.getLast?_concat,
        List.dropLast_concat, if_neg (by simp)]
      refine .frame ?_ (hfront _ (Nat.le_refl _))
      rw [← hzero, ← List.drop_eq_getElem_cons hlt, List.take_append_drop]
  · next hidx =>
    have hnone : 0 ∉ c.input := fun hmem => by
      simpa using List.findIdx?_eq_none_iff.mp hidx 0 hmem
    split
    · next hlong => exact .tooLong (fun hmem => hnone (List.mem_of_mem_take hmem)) hlong
    · next hshort => exact .none hnone (by omega)

/-- What `read_frame` makes of the bytes it holds: the first frame, a wait for
more, or an error that ends the connection. -/
inductive FrameResult (socket : Nat) (held : List UInt8) :
    Poll (Except ExchangeError (List UInt8)) Nat × VarlinkConnection → Prop where
  | frame : held = frame ++ 0 :: rest → 0 ∉ frame → c.socket = socket →
      c.input ++ c.available = rest → FrameResult socket held (.ready (.ok frame), c)
  | wait : 0 ∉ held → FrameResult socket held (.pending held.length, ⟨socket, [], held ++ spare⟩)
  | transport : FrameResult socket held (.ready (.error .transport), c)
  | protocol : FrameResult socket held (.ready (.error (.response (.protocol detail))), c)

theorem readFrame_result (c : VarlinkConnection) :
    FrameResult c.socket (c.input ++ c.available) c.readFrame := by
  fun_induction readFrame c with
  | case1 c result c' htake =>
    have htaken := takeFrame_taken c
    rw [htake] at htaken
    cases htaken with
    | frame hinput hframe =>
      exact .frame (by rw [hinput, List.append_assoc, List.cons_append]) hframe rfl rfl
    | tooLong => exact .protocol
  | case2 c htake filled hnone =>
    have hheld : c.input ++ c.available = c.input := by rw [hnone, List.append_nil]
    have htaken := takeFrame_taken c
    rw [htake] at htaken
    cases htaken with
    | none hclean =>
      rw [hheld, hnone]
      exact .wait hclean
  | case3 => exact .transport
  | case4 c htake filled havail hmin ih =>
    have hheld : (c.copyOut filled c.readSize).input ++ (c.copyOut filled c.readSize).available =
        c.input ++ c.available := by
      simp [copyOut, filled]
    rwa [hheld] at ih

theorem resumeReadFrame_result (c : VarlinkConnection) (filled : Nat) (chunk : List UInt8) :
    FrameResult c.socket (c.input.take filled ++ chunk) (c.resumeReadFrame filled chunk) := by
  unfold resumeReadFrame
  dsimp only
  split
  · exact .transport
  · split
    · exact .transport
    · have hresult := readFrame_result
        ({ c with available := chunk }.copyOut filled (c.input.length - filled))
      have hheld : ({ c with available := chunk }.copyOut filled (c.input.length - filled)).input ++
          ({ c with available := chunk }.copyOut filled (c.input.length - filled)).available =
          c.input.take filled ++ chunk := by
        simp [copyOut]
      rwa [hheld] at hresult

/-! ## whose reply -/

/-- The results that claim to be the answer of the resolver. -/
def ClaimsAnswer : ResolveResult → Prop
  | .ok _ => True
  | .error (.hostNotFound _) => True
  | _ => False

/-- The result of call `i` was decoded from the reply to a request that is the
call's own: all of its bytes were written by the call, and it asks for its host. -/
def OwnReply (t : Thread) (i : Nat) (call : Call) (result : ResolveResult) : Prop :=
  ∃ (s : Nat) (socket : Socket) (k : Nat) (request frame : List UInt8),
    t.sockets[s]? = some socket ∧
    encodeVarlinkRequest call.host = .ok request ∧
    socket.requests[k]? = some (request.map fun b => (i, b)) ∧ socket.replies[k]? = some frame ∧
    result = decodeVarlinkReply frame call.host call.port

/-- Every answer that came over Varlink is the call's own. -/
def AnswersOwn (t : Thread) : Prop :=
  ∀ i call result, t.calls[i]? = some call → call.state = .returned result .varlink →
    ClaimsAnswer result → OwnReply t i call result

/-- Whether no call is dropped inside `exchange_varlink`. -/
def keepsExchange (t : Thread) : Label → Bool
  | .drop i _ =>
    match t.waiting? i with
    | some (_, .write _ _) | some (_, .read _ _) => false
    | _ => true
  | _ => true

/-! ## looking at a thread -/

namespace Thread

variable {t : Thread} {i j s : Nat} {call : Call} {place : Await}

theorem waiting?_eq_some :
    t.waiting? i = some (call, place) ↔ t.calls[i]? = some call ∧ call.state = .waiting place := by
  unfold waiting?
  constructor
  · intro h
    split at h
    · next call' hcall =>
      split at h
      · next place' hstate =>
        cases h
        exact ⟨hcall, hstate⟩
      · cases h
    · cases h
  · rintro ⟨hcall, hstate⟩
    simp only [hcall, hstate]

theorem calls_setCall_self (h : t.calls[i]? = some call) (state : CallState) :
    (t.setCall i state).calls[i]? = some { call with state } := by
  simp [setCall, h]

theorem calls_setCall_ne (h : j ≠ i) (state : CallState) :
    (t.setCall i state).calls[j]? = t.calls[j]? := by
  simp [setCall, h.symm]

/-- A call after call `i` has moved on. -/
theorem cases_setCall (h : t.calls[i]? = some call)
    (hcall' : (t.setCall i state).calls[j]? = some call') :
    j = i ∧ call' = { call with state } ∨ j ≠ i ∧ t.calls[j]? = some call' := by
  by_cases hne : j = i
  · subst hne
    rw [calls_setCall_self h] at hcall'
    exact .inl ⟨rfl, (Option.some.inj hcall').symm⟩
  · exact .inr ⟨hne, calls_setCall_ne hne state ▸ hcall'⟩

theorem sockets_setSocket_self (h : t.sockets[s]? = some socket) (f : Socket → Socket) :
    (t.setSocket s f).sockets[s]? = some (f socket) := by
  simp [setSocket, h]

theorem sockets_setSocket_ne (h : s' ≠ s) (f : Socket → Socket) :
    (t.setSocket s f).sockets[s']? = t.sockets[s']? := by
  simp [setSocket, h.symm]

/-- Sockets are kept, and what went over them. -/
def Grows (t t' : Thread) : Prop :=
  ∀ (s : Nat) (socket : Socket), t.sockets[s]? = some socket →
    ∃ socket' : Socket, t'.sockets[s]? = some socket' ∧ socket.sent <+: socket'.sent ∧
      socket.replies <+: socket'.replies

theorem Grows.of_eq (h : t'.sockets = t.sockets) : Grows t t' := by
  intro s socket hs
  exact ⟨socket, h ▸ hs, List.prefix_rfl, List.prefix_rfl⟩

theorem Grows.setSocket (t : Thread) (s : Nat)
    (h : ∀ socket, socket.sent <+: (f socket).sent ∧ socket.replies <+: (f socket).replies) :
    Grows t (t.setSocket s f) := by
  intro s' socket hs
  by_cases heq : s' = s
  · subst heq
    exact ⟨f socket, sockets_setSocket_self hs f, h socket⟩
  · exact ⟨socket, (sockets_setSocket_ne heq f).trans hs, List.prefix_rfl, List.prefix_rfl⟩

end Thread

open Thread (Grows)

theorem getElem?_of_prefix {k : Nat} (h : xs <+: ys) (hk : xs[k]? = some a) : ys[k]? = some a := by
  obtain ⟨zs, rfl⟩ := h
  rw [List.getElem?_append_left (List.getElem?_eq_some_iff.mp hk).1]
  exact hk

theorem OwnReply.grows (h : OwnReply t i call result) (hgrows : Grows t t')
    (hhost : call'.host = call.host) (hport : call'.port = call.port) :
    OwnReply t' i call' result := by
  obtain ⟨s, socket, k, request, frame, hs, henc, hrequest, hreply, hresult⟩ := h
  obtain ⟨socket', hs', hsent, hreplies⟩ := hgrows s socket hs
  refine ⟨s, socket', k, request, frame, hs', hhost ▸ henc, ?_,
    getElem?_of_prefix hreplies hreply, by rw [hhost, hport]; exact hresult⟩
  obtain ⟨more, hmore⟩ := hsent
  rw [Socket.requests, ← hmore]
  exact getElem?_of_prefix (Frames.prefix_split _ _) hrequest

/-! ## the invariant -/

/-- Nothing is on its way over the socket, in either direction. -/
structure Quiet (socket : Socket) : Prop where
  rest_eq : (Frames.split (fun b => decide (b.2 = 0)) socket.sent).2 = []
  answered : socket.requests.length = socket.replies.length
  incoming_eq : socket.incoming = []

/-- Call `i` has written its request up to `rest`, on a quiet socket. -/
structure Sending (i : Nat) (request rest : List UInt8) (socket : Socket) : Prop where
  exists_quiet : ∃ before written, Quiet before ∧ request = written ++ rest ∧
    socket = { before with sent := before.sent ++ written.map fun b => (i, b) }

/-- The socket owes a reply to `own`, or has sent it: then what the connection
holds and what is on its way are that reply. -/
inductive Owes (own : List (Nat × UInt8)) (socket : Socket) (held : List UInt8) : Prop where
  | unanswered : Frames.split (fun b => decide (b.2 = 0)) socket.sent = (earlier ++ [own], []) →
      earlier.length = socket.replies.length → socket.incoming = [] → held = [] →
      Owes own socket held
  | answered : Frames.split (fun b => decide (b.2 = 0)) socket.sent = (earlier ++ [own], []) →
      socket.replies = replies ++ [frame] → earlier.length = replies.length → 0 ∉ frame →
      held ++ socket.incoming = frame ++ [0] → Owes own socket held

/-- The connection is open over `socket`. -/
def Connected (t : Thread) (c : VarlinkConnection) (socket : Socket) : Prop :=
  t.connection = some c ∧ t.sockets[c.socket]? = some socket

/-- A connection that is not in use. -/
def Unused (t : Thread) : Prop :=
  ∀ c, t.connection = some c →
    ∃ socket, t.sockets[c.socket]? = some socket ∧ Quiet socket ∧ c.input = [] ∧ c.available = []

/-- What holds while call `i` has the lock, by where it waits. -/
inductive Stage (t : Thread) (i : Nat) (call : Call) : Await → Prop where
  | socket : t.connection = none → Stage t i call (.socket retry)
  | connect : t.connection = none → Stage t i call (.connect retry)
  | write : Connected t c socket → encodeVarlinkRequest call.host = .ok request →
      Sending i request rest socket → rest ≠ [] → c.input = [] → c.available = [] →
      Stage t i call (.write retry rest)
  | read : Connected t c socket → encodeVarlinkRequest call.host = .ok request →
      Owes (request.map fun b => (i, b)) socket (c.input.take filled) → c.available = [] →
      Stage t i call (.read retry filled)

/-- The places where a call waits without the lock. -/
def Await.Outside : Await → Prop
  | .lock | .blocking => True
  | _ => False

/-- What holds of the calls other than `i`. -/
structure Others (t : Thread) (i : Nat) : Prop where
  outside : ∀ j call place, j ≠ i → t.waiting? j = some (call, place) → place.Outside
  own : ∀ (j : Nat) call result, j ≠ i → t.calls[j]? = some call →
    call.state = .returned result .varlink → ClaimsAnswer result → OwnReply t j call result

/-- The invariant of the runs that keep every exchange. -/
structure Inv (t : Thread) : Prop where
  unlocked : t.lockedBy = none → Unused t
  holder : ∀ i, t.lockedBy = some i →
    ∃ call place, t.waiting? i = some (call, place) ∧ Stage t i call place
  outside : ∀ i call place, t.lockedBy ≠ some i → t.waiting? i = some (call, place) → place.Outside
  own : AnswersOwn t

theorem inv_initial : Inv .initial where
  unlocked _ _ h := by cases h
  holder _ h := by cases h
  outside i call place _ h := by simp [Thread.waiting?, Thread.initial] at h
  own i call result h := by simp [Thread.initial] at h

/-! ### moving one call on -/

theorem Inv.others (h : Inv t) (hi : t.lockedBy = none ∨ t.lockedBy = some i) : Others t i where
  outside j call place hj hw := by
    refine h.outside j call place ?_ hw
    rcases hi with hi | hi <;> rw [hi] <;> simp [Ne.symm hj]
  own j call result _ hcall hstate hclaims := h.own j call result hcall hstate hclaims

/-- The other calls do not depend on the resolver state. -/
theorem Others.of_grows (h : Others t i) (hcalls : t'.calls = t.calls) (hgrows : Grows t t') :
    Others t' i where
  outside j call place hj hw := by
    refine h.outside j call place hj ?_
    rwa [Thread.waiting?, ← hcalls]
  own j call result hj hcall hstate hclaims :=
    (h.own j call result hj (hcalls ▸ hcall) hstate hclaims).grows hgrows rfl rfl

theorem Others.setSocket (h : Others t i) (s : Nat)
    (hf : ∀ socket, socket.sent <+: (f socket).sent ∧ socket.replies <+: (f socket).replies) :
    Others (t.setSocket s f) i :=
  h.of_grows rfl (.setSocket t s hf)

theorem Stage.setCall (h : Stage t i call place) (hhost : call'.host = call.host) (j : Nat)
    (state : CallState) : Stage (t.setCall j state) i call' place := by
  cases h with
  | socket hc => exact .socket hc
  | connect hc => exact .connect hc
  | write hc henc hs hne hinput havail =>
    exact .write hc (hhost ▸ henc) hs hne hinput havail
  | read hc henc ho havail => exact .read hc (hhost ▸ henc) ho havail

theorem inv_hold (h : Others t i) (hlock : t.lockedBy = some i) (hcall : t.calls[i]? = some call)
    (hstage : Stage t i call place) : Inv (t.setCall i (.waiting place)) where
  unlocked hnone := by
    have : t.lockedBy = none := hnone
    rw [hlock] at this
    cases this
  holder j hj := by
    have : t.lockedBy = some j := hj
    rw [hlock] at this
    cases this
    refine ⟨_, place, Thread.waiting?_eq_some.mpr ⟨Thread.calls_setCall_self hcall _, rfl⟩,
      hstage.setCall ?_ _ _⟩
    rfl
  outside j call' place' hj hw := by
    have hne : j ≠ i := by
      rintro rfl
      exact hj hlock
    rw [Thread.waiting?, Thread.calls_setCall_ne hne] at hw
    exact h.outside j call' place' hne hw
  own j call' result hcall' hstate hclaims := by
    rcases Thread.cases_setCall hcall hcall' with ⟨rfl, rfl⟩ | ⟨hne, hcall'⟩
    · cases hstate
    · exact (h.own j call' result hne hcall' hstate hclaims).grows (.of_eq rfl) rfl rfl

section
variable {state : CallState} (h : Others t i) (hlock : t.lockedBy = none)
  (hcall : t.calls[i]? = some call) (hunused : Unused t)
  (hwaiting : ∀ place, state = .waiting place → place.Outside)
include h hlock hcall hunused hwaiting

/-- The call goes on without the lock, or ends. -/
theorem inv_release (hresult : ∀ result, state = .returned result .varlink → ClaimsAnswer result →
      OwnReply t i call result) : Inv (t.setCall i state) where
  unlocked _ := hunused
  holder j hj := by
    have : t.lockedBy = some j := hj
    rw [hlock] at this
    cases this
  outside j call' place' _ hw := by
    obtain ⟨hcall', hstate⟩ := Thread.waiting?_eq_some.mp hw
    rcases Thread.cases_setCall hcall hcall' with ⟨rfl, rfl⟩ | ⟨hne, hcall'⟩
    · exact hwaiting place' hstate
    · exact h.outside j call' place' hne (Thread.waiting?_eq_some.mpr ⟨hcall', hstate⟩)
  own j call' result hcall' hstate hclaims := by
    rcases Thread.cases_setCall hcall hcall' with ⟨rfl, rfl⟩ | ⟨hne, hcall'⟩
    · exact (hresult result hstate hclaims).grows (.of_eq rfl) rfl rfl
    · exact (h.own j call' result hne hcall' hstate hclaims).grows (.of_eq rfl) rfl rfl

/-- A call that has no result over Varlink leaves. -/
theorem inv_leave (hpath : ∀ result, state ≠ .returned result .varlink) : Inv (t.setCall i state) :=
  inv_release h hlock hcall hunused hwaiting fun result hstate => absurd hstate (hpath result)

end

/-- A call that does not have the lock moves on. -/
theorem inv_outside (h : Inv t) (hlock : t.lockedBy ≠ some i) (hcall : t.calls[i]? = some call)
    (hwaiting : ∀ place, state = .waiting place → place.Outside)
    (hpath : ∀ result, state ≠ .returned result .varlink) : Inv (t.setCall i state) where
  unlocked hnone := h.unlocked hnone
  holder j hj := by
    have hne : j ≠ i := by
      rintro rfl
      exact hlock hj
    obtain ⟨call', place', hw, hstage⟩ := h.holder j hj
    refine ⟨call', place', ?_, hstage.setCall rfl _ _⟩
    rwa [Thread.waiting?, Thread.calls_setCall_ne hne]
  outside j call' place' hj hw := by
    obtain ⟨hcall', hstate⟩ := Thread.waiting?_eq_some.mp hw
    rcases Thread.cases_setCall hcall hcall' with ⟨rfl, rfl⟩ | ⟨-, hcall'⟩
    · exact hwaiting place' hstate
    · exact h.outside j call' place' hj (Thread.waiting?_eq_some.mpr ⟨hcall', hstate⟩)
  own j call' result hcall' hstate hclaims := by
    rcases Thread.cases_setCall hcall hcall' with ⟨rfl, rfl⟩ | ⟨-, hcall'⟩
    · exact absurd hstate (hpath result)
    · exact (h.own j call' result hcall' hstate hclaims).grows (.of_eq rfl) rfl rfl

theorem unused_of_none (h : t.connection = none) : Unused t := by
  intro c hc
  rw [h] at hc
  cases hc

/-! ### the end of an exchange -/

section
variable (h : Others t i) (hcall : t.calls[i]? = some call)
include h hcall

theorem inv_transportFailure (hconn : t.connection = none) : Inv (t.transportFailure i) := by
  refine inv_leave (t := { t with mode := .blocking, lockedBy := none })
    (h.of_grows rfl (.of_eq rfl)) rfl hcall (unused_of_none hconn) ?_ ?_
  · rintro _ ⟨⟩
    trivial
  · rintro _ ⟨⟩

theorem inv_transport (hlock : t.lockedBy = some i) (retry : Bool) :
    Inv (t.exchanged i retry (.error .transport)) := by
  unfold Thread.exchanged
  dsimp only
  split
  · exact inv_transportFailure (h.of_grows rfl (.of_eq rfl)) hcall rfl
  · exact inv_hold (h.of_grows rfl (.of_eq rfl)) hlock hcall (.socket rfl)

theorem inv_protocol (retry : Bool)
    (detail : Str) : Inv (t.exchanged i retry (.error (.response (.protocol detail)))) := by
  refine inv_release (t := { t with connection := none, mode := .varlink, lockedBy := none })
    (h.of_grows rfl (.of_eq rfl)) rfl hcall (unused_of_none rfl) ?_ ?_
  · rintro _ ⟨⟩
  · rintro _ ⟨⟩ hclaims
    exact hclaims.elim

/-- An exchange that decodes a frame, over a connection that is quiet again. -/
theorem inv_decoded (hunused : Unused t)
    (retry : Bool) (hown : OwnReply t i call (decodeVarlinkReply frame call.host call.port)) :
    Inv (t.exchanged i retry (Thread.decoded call (.ok frame))) := by
  have hreplied : ∀ result, OwnReply t i call result → Inv (t.replied i result) := by
    intro result hown
    refine inv_release (t := { t with mode := .varlink, lockedBy := none })
      (h.of_grows rfl (.of_eq rfl)) rfl hcall hunused ?_ ?_
    · rintro _ ⟨⟩
    · rintro _ ⟨⟩ -
      exact hown.grows (.of_eq rfl) rfl rfl
  rw [Thread.decoded]
  cases hdec : decodeVarlinkReply frame call.host call.port with
  | ok addresses => exact hreplied _ (hdec ▸ hown)
  | error error =>
    cases error with
    | protocol detail => exact inv_protocol h hcall retry detail
    | _ => exact hreplied _ (hdec ▸ hown)

end

/-! ### the frame of a reply -/

/-- Nothing but the reply that is owed can be read, and then nothing is left. -/
theorem Owes.frame {frame rest : List UInt8} (h : Owes own socket (frame ++ 0 :: rest))
    (hframe : 0 ∉ frame) :
    rest = [] ∧ Quiet socket ∧
      ∃ k : Nat, socket.requests[k]? = some own ∧ socket.replies[k]? = some frame := by
  cases h with
  | unanswered _ _ _ hheld => cases frame <;> cases hheld
  | @answered earlier replies frame' hsent hreplies hlen hframe' hheld =>
    rw [List.append_assoc, List.cons_append] at hheld
    obtain ⟨rfl, hnil⟩ := Frames.cut_unique hframe hframe' hheld
    obtain ⟨rfl, hincoming⟩ := List.append_eq_nil_iff.mp hnil
    have hrequests : socket.requests = earlier ++ [own] := congrArg Prod.fst hsent
    refine ⟨rfl, ⟨congrArg Prod.snd hsent, ?_, hincoming⟩, earlier.length, ?_, ?_⟩
    · rw [hrequests, hreplies, List.length_append, List.length_append, hlen]
      rfl
    · rw [hrequests, List.getElem?_concat_length]
    · rw [hreplies, hlen, List.getElem?_concat_length]

/-- The call goes on with a frame, a wait or an error. -/
theorem inv_afterReadFrame (h : Others t i) (hcall : t.calls[i]? = some call)
    (hlock : t.lockedBy = some i) (hs : t.sockets[s]? = some socket)
    (henc : encodeVarlinkRequest call.host = .ok request)
    (howes : Owes (request.map fun b => (i, b)) socket held) (retry : Bool)
    (hp : FrameResult s held p) : Inv (t.afterReadFrame i call retry p) := by
  cases hp with
  | @frame frame rest c hheld hframe hsocket hleft =>
    subst hheld
    obtain ⟨rfl, hquiet, k, hrequest, hreply⟩ := howes.frame hframe
    obtain ⟨hinput, havail⟩ := List.append_eq_nil_iff.mp hleft
    refine inv_decoded (t := { t with connection := some c }) (h.of_grows rfl (.of_eq rfl)) hcall
      ?_ retry ⟨s, socket, k, request, frame, hs, henc, hrequest, hreply, rfl⟩
    rintro _ ⟨⟩
    exact ⟨socket, hsocket ▸ hs, hquiet, hinput, havail⟩
  | @wait spare hzero =>
    refine inv_hold (t := { t with connection := some ⟨s, [], held ++ spare⟩ })
      (h.of_grows rfl (.of_eq rfl)) hlock hcall (.read ⟨rfl, hs⟩ henc ?_ rfl)
    rwa [List.take_left]
  | @transport c =>
    exact inv_transport (t := { t with connection := some c }) (h.of_grows rfl (.of_eq rfl))
      hcall hlock retry
  | @protocol detail c =>
    exact inv_protocol (t := { t with connection := some c }) (h.of_grows rfl (.of_eq rfl))
      hcall retry detail

/-! ### the request -/

/-- A request that is written out is owed a reply. -/
theorem Sending.owes (h : Sending i request [] socket) (htext : request = text ++ [0])
    (hnul : 0 ∉ text) : Owes (request.map fun b => (i, b)) socket [] := by
  obtain ⟨before, written, hquiet, hrequest, rfl⟩ := h.exists_quiet
  rw [List.append_nil] at hrequest
  subst hrequest
  subst htext
  have hsplit : Frames.split (fun b : Nat × UInt8 => decide (b.2 = 0))
      (before.sent ++ (text ++ [0]).map fun b => (i, b)) =
      (before.requests ++ [(text ++ [0]).map fun b => (i, b)], []) := by
    rw [List.map_append]
    refine Frames.split_frame hquiet.rest_eq ?_ rfl
    intro b hb
    obtain ⟨x, hx, rfl⟩ := List.mem_map.mp hb
    rw [decide_eq_false_iff_not]
    rintro rfl
    exact hnul hx
  exact .unanswered hsplit hquiet.answered hquiet.incoming_eq rfl

section
variable (h : Others t i) (hcall : t.calls[i]? = some call) (hlock : t.lockedBy = some i)
include h hcall hlock

/-- The call has written up to `rest` and goes on. -/
theorem inv_exchange (hconn : Connected t c socket)
    (henc : encodeVarlinkRequest call.host = .ok request)
    (hsending : Sending i request rest socket) (hinput : c.input = []) (havail : c.available = [])
    (retry : Bool) : Inv (t.exchange i call retry c rest) := by
  unfold Thread.exchange
  split
  · next hrest =>
    subst hrest
    obtain ⟨text, henc', hnul⟩ := encodeVarlinkRequest_frame call.host
    have htext : request = text ++ [0] := Except.ok.inj (henc.symm.trans henc')
    have hheld := readFrame_result c
    rw [hinput, havail] at hheld
    exact inv_afterReadFrame h hcall hlock hconn.2 henc (hsending.owes htext hnul) retry hheld
  · next hrest =>
    exact inv_hold h hlock hcall (.write hconn henc hsending hrest hinput havail)

/-- The call starts its exchange over a connection that is not in use. -/
theorem inv_startExchange (hunused : Unused t) (hsome : t.connection ≠ none)
    (henc : encodeVarlinkRequest call.host = .ok request) (retry : Bool) :
    Inv (t.startExchange i call retry request) := by
  unfold Thread.startExchange
  cases hconn : t.connection with
  | none => exact absurd hconn hsome
  | some c =>
    obtain ⟨socket, hs, hquiet, hinput, havail⟩ := hunused c hconn
    refine inv_exchange h hcall hlock ⟨hconn, hs⟩ henc ⟨socket, [], hquiet, rfl, ?_⟩ hinput havail
      retry
    rw [List.map_nil, List.append_nil]

theorem inv_preferredLookup (hunused : Unused t) : Inv (t.preferredLookup i call) := by
  obtain ⟨text, henc, -⟩ := encodeVarlinkRequest_frame call.host
  unfold Thread.preferredLookup
  rw [henc]
  dsimp only
  split
  · next hnone => exact inv_hold h hlock hcall (.socket hnone)
  · next c hsome =>
    exact inv_startExchange h hcall hlock hunused (by rw [hsome]; simp) henc false

end

theorem inv_locked (h : Others t i) (hcall : t.calls[i]? = some call) (hlock : t.lockedBy = none)
    (hunused : Unused t) : Inv (t.locked i call) := by
  unfold Thread.locked
  split
  · exact inv_preferredLookup (t := { t with lockedBy := some i }) (h.of_grows rfl (.of_eq rfl))
      hcall rfl hunused
  · refine inv_leave h hlock hcall hunused ?_ ?_
    · rintro _ ⟨⟩
      trivial
    · rintro _ ⟨⟩

theorem inv_connected (h : Others t i) (hcall : t.calls[i]? = some call)
    (hlock : t.lockedBy = some i) (retry : Bool) : Inv (t.connected i call retry) := by
  obtain ⟨text, henc, -⟩ := encodeVarlinkRequest_frame call.host
  unfold Thread.connected
  rw [henc]
  refine inv_startExchange (t := { t with
      connection := some (.new t.sockets.length), sockets := t.sockets ++ [Socket.new] })
    (h.of_grows rfl ?_) hcall hlock ?_ (by simp) henc retry
  · intro s socket hs
    refine ⟨socket, getElem?_of_prefix (List.prefix_append _ _) hs, List.prefix_rfl,
      List.prefix_rfl⟩
  · rintro _ ⟨⟩
    exact ⟨.new, List.getElem?_concat_length, ⟨rfl, rfl, rfl⟩, rfl, rfl⟩

/-! ### labels -/

/-- The call that waits has the lock, unless it waits outside. -/
theorem Inv.stage (h : Inv t) (hw : t.waiting? i = some (call, place)) (hat : ¬ place.Outside) :
    t.lockedBy = some i ∧ Stage t i call place := by
  have hlock : t.lockedBy = some i := Decidable.byContradiction fun hne =>
    hat (h.outside i call place hne hw)
  obtain ⟨call', place', hw', hstage⟩ := h.holder i hlock
  rw [hw] at hw'
  cases hw'
  exact ⟨hlock, hstage⟩

theorem Sending.send (h : Sending i request rest socket) (amount : Nat) :
    Sending i request (rest.drop amount)
      { socket with sent := socket.sent ++ (rest.take amount).map fun b => (i, b) } := by
  obtain ⟨before, written, hquiet, rfl, rfl⟩ := h.exists_quiet
  refine ⟨before, written ++ rest.take amount, hquiet, ?_, ?_⟩
  · rw [List.append_assoc, List.take_append_drop]
  · simp only [List.map_append, List.append_assoc]

theorem inv_wrote (h : Inv t) (hw : t.waiting? i = some (call, .write retry rest))
    (hnext : t.wrote i call retry rest amount = some t') : Inv t' := by
  obtain ⟨hlock, hstage⟩ := h.stage hw (fun hout => hout)
  have hothers := h.others (.inr hlock)
  have hcall := (Thread.waiting?_eq_some.mp hw).1
  cases hstage with
  | @write c socket request rest _ hconn henc hsending _ hinput havail =>
    cases amount with
    | none =>
      cases hnext
      exact inv_transport hothers hcall hlock retry
    | some amount =>
      rw [Thread.wrote, hconn.1] at hnext
      obtain ⟨-, hnext⟩ := Option.ite_none_left_eq_some.mp hnext
      split at hnext
      · cases hnext
        exact inv_transport hothers hcall hlock retry
      · cases hnext
        refine inv_exchange (t := t.send i c.socket rest amount) (hothers.setSocket _ ?_) hcall
          hlock ⟨hconn.1, Thread.sockets_setSocket_self hconn.2 _⟩ henc
          (hsending.send amount) hinput havail retry
        intro socket
        exact ⟨List.prefix_append _ _, List.prefix_rfl⟩

theorem Owes.receive (h : Owes own socket held) (amount : Nat) :
    Owes own { socket with incoming := socket.incoming.drop amount }
      (held ++ socket.incoming.take amount) := by
  cases h with
  | unanswered hsent hlen hincoming hheld =>
    refine .unanswered hsent hlen ?_ ?_
    · simp [hincoming]
    · simp [hincoming, hheld]
  | answered hsent hreplies hlen hframe hheld =>
    refine .answered hsent hreplies hlen hframe ?_
    rw [List.append_assoc, List.take_append_drop, hheld]

theorem inv_readEnds (h : Inv t) (hw : t.waiting? i = some (call, .read retry filled))
    (hnext : t.readEnds i call retry filled amount = some t') : Inv t' := by
  obtain ⟨hlock, hstage⟩ := h.stage hw (fun hout => hout)
  have hothers := h.others (.inr hlock)
  have hcall := (Thread.waiting?_eq_some.mp hw).1
  cases hstage with
  | @read c socket request filled _ hconn henc howes havail =>
    cases amount with
    | none =>
      cases hnext
      exact inv_transport hothers hcall hlock retry
    | some amount =>
      rw [Thread.readEnds, hconn.1] at hnext
      dsimp only at hnext
      rw [hconn.2] at hnext
      obtain ⟨-, hnext⟩ := Option.ite_none_left_eq_some.mp hnext
      cases hnext
      refine inv_afterReadFrame (hothers.setSocket c.socket ?_) hcall hlock
        (Thread.sockets_setSocket_self hconn.2 _) henc (howes.receive amount) retry
        (resumeReadFrame_result c filled _)
      intro socket
      exact ⟨List.prefix_rfl, List.prefix_rfl⟩

/-- A call that waits outside does not have the lock. -/
theorem Inv.not_locked (h : Inv t) (hw : t.waiting? i = some (call, place)) (hat : place.Outside) :
    t.lockedBy ≠ some i := by
  intro hlock
  obtain ⟨call', place', hw', hstage⟩ := h.holder i hlock
  rw [hw] at hw'
  cases hw'
  cases hstage <;> exact hat

theorem inv_dropped (h : Inv t) (hw : t.waiting? i = some (call, place))
    (hkeeps : keepsExchange t (.drop i amount) = true)
    (hnext : t.dropped i amount place = some t') :
    Inv t' := by
  have hcall := (Thread.waiting?_eq_some.mp hw).1
  have hout : place.Outside → Inv (t.setCall i .dropped) := fun hat =>
    inv_outside h (h.not_locked hw hat) hcall (by rintro _ ⟨⟩) (by rintro _ ⟨⟩)
  have hin : t.connection = none → t.lockedBy = some i →
      Inv ({ t with lockedBy := none }.setCall i .dropped) := fun hnone hlock =>
    inv_leave (t := { t with lockedBy := none }) ((h.others (.inr hlock)).of_grows rfl (.of_eq rfl))
      rfl hcall (unused_of_none hnone) (by rintro _ ⟨⟩) (by rintro _ ⟨⟩)
  cases place with
  | lock | blocking =>
    cases hnext
    exact hout trivial
  | socket retry =>
    obtain ⟨hlock, hstage⟩ := h.stage hw (fun hat => hat)
    cases hnext
    cases hstage with
    | socket hnone => exact hin hnone hlock
  | connect retry =>
    obtain ⟨hlock, hstage⟩ := h.stage hw (fun hat => hat)
    cases hnext
    cases hstage with
    | connect hnone => exact hin hnone hlock
  | write | read => simp [keepsExchange, hw] at hkeeps

/-! ### the server -/

/-- The server has nothing to answer on a quiet socket. -/
theorem Quiet.not_lt (h : Quiet socket) : ¬ socket.replies.length < socket.requests.length := by
  rw [h.answered]
  exact Nat.lt_irrefl _

/-- Nor while a request is being written. -/
theorem Sending.not_lt (h : Sending i request rest socket) (hrest : rest ≠ [])
    (htext : request = text ++ [0]) (hnul : 0 ∉ text) :
    ¬ socket.replies.length < socket.requests.length := by
  obtain ⟨before, written, hquiet, hrequest, rfl⟩ := h.exists_quiet
  have hwritten : 0 ∉ written := by
    obtain ⟨rest', last, rfl⟩ := (List.eq_nil_or_concat rest).resolve_left hrest
    rw [htext, List.concat_eq_append, ← List.append_assoc] at hrequest
    obtain ⟨htext', -⟩ := List.append_inj' hrequest rfl
    intro hmem
    exact hnul (htext' ▸ List.mem_append_left _ hmem)
  have hsplit : Frames.split (fun b : Nat × UInt8 => decide (b.2 = 0))
      (before.sent ++ written.map fun b => (i, b)) =
        (before.requests, written.map fun b => (i, b)) := by
    refine Frames.split_part hquiet.rest_eq ?_
    intro b hb
    obtain ⟨x, hx, rfl⟩ := List.mem_map.mp hb
    rw [decide_eq_false_iff_not]
    rintro rfl
    exact hwritten hx
  have hrequests := congrArg Prod.fst hsplit
  rw [Socket.requests, hrequests]
  exact hquiet.not_lt

/-- The server answers a request that is owed a reply, and only that. -/
theorem Owes.serve (h : Owes own socket held)
    (hlt : socket.replies.length < socket.requests.length) (hreply : 0 ∉ reply) :
    Owes own { socket with
      replies := socket.replies ++ [reply]
      incoming := socket.incoming ++ (reply ++ [0]) } held := by
  cases h with
  | unanswered hsent hlen hincoming hheld =>
    exact .answered hsent rfl hlen hreply (by rw [hheld, hincoming]; rfl)
  | answered hsent hreplies hlen _ _ =>
    rw [Socket.requests, hsent, hreplies, List.length_append, List.length_append, hlen] at hlt
    exact absurd hlt (Nat.lt_irrefl _)

theorem Stage.serve (h : Stage t i call place) (hs : t.sockets[s]? = some served)
    (hlt : served.replies.length < served.requests.length) (hreply : 0 ∉ reply) :
    Stage (t.setSocket s fun socket => { socket with
      replies := socket.replies ++ [reply]
      incoming := socket.incoming ++ (reply ++ [0]) }) i call place := by
  cases h with
  | socket hc => exact .socket hc
  | connect hc => exact .connect hc
  | @write c socket request rest _ hc henc hsending hrest hinput havail =>
    by_cases heq : c.socket = s
    · subst heq
      cases hc.2.symm.trans hs
      obtain ⟨text, henc', hnul⟩ := encodeVarlinkRequest_frame call.host
      have htext : request = text ++ [0] := Except.ok.inj (henc.symm.trans henc')
      exact absurd hlt (hsending.not_lt hrest htext hnul)
    · exact .write ⟨hc.1, (Thread.sockets_setSocket_ne heq _).trans hc.2⟩ henc hsending hrest
        hinput havail
  | @read c socket request filled _ hc henc howes havail =>
    by_cases heq : c.socket = s
    · subst heq
      cases hc.2.symm.trans hs
      exact .read ⟨hc.1, Thread.sockets_setSocket_self hs _⟩ henc (howes.serve hlt hreply) havail
    · exact .read ⟨hc.1, (Thread.sockets_setSocket_ne heq _).trans hc.2⟩ henc howes havail

theorem inv_serve (h : Inv t) (hnext : t.serve s reply = some t') : Inv t' := by
  unfold Thread.serve at hnext
  split at hnext
  · cases hnext
  · next served hserved =>
    obtain ⟨hlt, rfl⟩ := Option.ite_some_none_eq_some.mp hnext
    have hgrows : Grows t (t.setSocket s fun socket => { socket with
        replies := socket.replies ++ [reply]
        incoming := socket.incoming ++ (reply ++ [0]) }) :=
      .setSocket t s fun socket => ⟨List.prefix_rfl, List.prefix_append _ _⟩
    refine ⟨?_, ?_, h.outside, ?_⟩
    · intro hlock c hc
      obtain ⟨socket, hs, hquiet, hinput, havail⟩ := h.unlocked hlock c hc
      by_cases heq : c.socket = s
      · subst heq
        cases hs.symm.trans hserved
        exact absurd hlt.1 hquiet.not_lt
      · exact ⟨socket, (Thread.sockets_setSocket_ne heq _).trans hs, hquiet, hinput, havail⟩
    · intro i hlock
      obtain ⟨call, place, hw, hstage⟩ := h.holder i hlock
      exact ⟨call, place, hw, hstage.serve hserved hlt.1 hlt.2⟩
    · intro i call result hcall hstate hclaims
      exact (h.own i call result hcall hstate hclaims).grows hgrows rfl rfl

/-! ### a new call -/

theorem getElem?_concat (h : (xs ++ [x])[j]? = some y) :
    xs[j]? = some y ∨ j = xs.length ∧ y = x := by
  by_cases hlt : j < xs.length
  · rw [List.getElem?_append_left hlt] at h
    exact .inl h
  · obtain ⟨hlen, hget⟩ := List.getElem?_eq_some_iff.mp h
    rw [List.length_append, List.length_singleton] at hlen
    have hj : j = xs.length := by omega
    subst hj
    rw [List.getElem?_concat_length] at h
    exact .inr ⟨rfl, (Option.some.inj h).symm⟩

theorem inv_append (h : Inv t) (hwaiting : ∀ place, call.state = .waiting place → place.Outside)
    (hpath : ∀ result, call.state ≠ .returned result .varlink) :
    Inv { t with calls := t.calls ++ [call] } where
  unlocked hlock := h.unlocked hlock
  holder i hlock := by
    obtain ⟨call', place, hw, hstage⟩ := h.holder i hlock
    obtain ⟨hcall, hstate⟩ := Thread.waiting?_eq_some.mp hw
    refine ⟨call', place, Thread.waiting?_eq_some.mpr ⟨?_, hstate⟩, ?_⟩
    · exact getElem?_of_prefix (List.prefix_append _ _) hcall
    · cases hstage with
      | socket hc => exact .socket hc
      | connect hc => exact .connect hc
      | write hc henc hs hne hinput havail => exact .write hc henc hs hne hinput havail
      | read hc henc ho havail => exact .read hc henc ho havail
  outside i call' place hlock hw := by
    obtain ⟨hcall, hstate⟩ := Thread.waiting?_eq_some.mp hw
    rcases getElem?_concat hcall with hcall | ⟨-, rfl⟩
    · exact h.outside i call' place hlock (Thread.waiting?_eq_some.mpr ⟨hcall, hstate⟩)
    · exact hwaiting place hstate
  own i call' result hcall hstate hclaims := by
    rcases getElem?_concat hcall with hcall | ⟨-, rfl⟩
    · exact (h.own i call' result hcall hstate hclaims).grows (.of_eq rfl) rfl rfl
    · exact absurd hstate (hpath result)

theorem inv_resolve (h : Inv t) (parseIp : Str → Option IpAddr) (host : Str) (port : UInt16) :
    Inv (t.resolve parseIp host port) := by
  unfold Thread.resolve
  split
  · refine inv_append h ?_ ?_
    · rintro _ ⟨⟩
    · rintro _ ⟨⟩
  · have hnew : Inv { t with calls := t.calls ++ [⟨host, port, .waiting .lock⟩] } := by
      refine inv_append h ?_ ?_
      · rintro _ ⟨⟩
        trivial
      · rintro _ ⟨⟩
    split
    · next hlock =>
      exact inv_locked (hnew.others (.inl hlock)) List.getElem?_concat_length hlock
        (hnew.unlocked hlock)
    · exact hnew

/-! ## every run -/

theorem inv_next (h : Inv t) (hkeeps : keepsExchange t l = true)
    (hnext : t.next parseIp l = some t') : Inv t' := by
  cases l with
  | resolve host port =>
    cases hnext
    exact inv_resolve h parseIp host port
  | wake i =>
    rw [Thread.next] at hnext
    split at hnext
    · next call hw =>
      cases hnext
      split
      · next hlock =>
        exact inv_locked (h.others (.inl hlock)) (Thread.waiting?_eq_some.mp hw).1 hlock
          (h.unlocked hlock)
      · exact h
    · cases hnext
  | cancel | blocking =>
    rw [Thread.next] at hnext
    split at hnext
    · next call hw =>
      cases hnext
      exact inv_outside h (h.not_locked hw trivial) (Thread.waiting?_eq_some.mp hw).1
        (by rintro _ ⟨⟩) (by rintro _ ⟨⟩)
    · cases hnext
  | socket i ok =>
    rw [Thread.next] at hnext
    split at hnext
    · next call retry hw =>
      cases hnext
      obtain ⟨hlock, hstage⟩ := h.stage hw (fun hout => hout)
      have hcall := (Thread.waiting?_eq_some.mp hw).1
      cases hstage with
      | socket hnone =>
        split
        · exact inv_hold (h.others (.inr hlock)) hlock hcall (.connect hnone)
        · exact inv_transportFailure (h.others (.inr hlock)) hcall hnone
    · cases hnext
  | connect i ok =>
    rw [Thread.next] at hnext
    split at hnext
    · next call retry hw =>
      cases hnext
      obtain ⟨hlock, hstage⟩ := h.stage hw (fun hout => hout)
      have hcall := (Thread.waiting?_eq_some.mp hw).1
      cases hstage with
      | connect hnone =>
        split
        · exact inv_connected (h.others (.inr hlock)) hcall hlock retry
        · exact inv_transportFailure (h.others (.inr hlock)) hcall hnone
    · cases hnext
  | write i amount =>
    rw [Thread.next] at hnext
    split at hnext
    · next hw => exact inv_wrote h hw hnext
    · cases hnext
  | read i amount =>
    rw [Thread.next] at hnext
    split at hnext
    · next hw => exact inv_readEnds h hw hnext
    · cases hnext
  | drop i amount =>
    rw [Thread.next] at hnext
    split at hnext
    · next hw => exact inv_dropped h hw hkeeps hnext
    · cases hnext
  | serve s reply => exact inv_serve h hnext

/-- In every run in which no call is dropped inside an exchange, every answer
that came over Varlink is the call's own. -/
theorem answersOwn_of_keepsExchange (parseIp : Str → Option IpAddr) {t : Thread}
    (h : (system parseIp).Reaches (fun t l => keepsExchange t l = true) t) : AnswersOwn t := by
  have hinv : Inv t := h.invariant inv_initial fun _ _ _ => inv_next
  exact hinv.own

/-! ### two runs -/

/-- A reply that reports a Varlink error. -/
def errorReply : Str := "\x7b\"error\":\"e\"\x7d".toList

/-- How many bytes the request for a host has. -/
def requestLength (host : Str) : Nat := ((encodeVarlinkRequest host).toOption.getD []).length

/-- The call has returned that its host was not found. -/
def Call.notFound (call : Call) : Bool :=
  match call.state with
  | .returned (.error (.hostNotFound host)) .varlink => host = call.host
  | _ => false

theorem Call.state_of_notFound {call : Call} (h : call.notFound = true) :
    call.state = .returned (.error (.hostNotFound call.host)) .varlink := by
  unfold notFound at h
  split at h
  · next hstate =>
    rw [hstate, of_decide_eq_true h]
  · cases h

/-- A call that completes. -/
theorem answersOwn_hostNotFound : ∃ t, t.calls.map Call.state =
      [.returned (.error (.hostNotFound "a".toList)) .varlink] ∧ AnswersOwn t := by
  have hrun : (((system fun _ => none).restrict keepsExchange).run .initial
      [.resolve "a".toList 80, .socket 0 true, .connect 0 true,
        .write 0 (some (requestLength "a".toList)), .serve 0 errorReply.bytes,
        .read 0 (some (errorReply.bytes.length + 1))]).any (fun t => t.calls.all Call.notFound &&
          t.calls.map Call.host == ["a".toList]) = true := by decide +kernel
  obtain ⟨t, hreach, ht⟩ := System.exists_restrict_run hrun
  rw [Bool.and_eq_true, List.all_eq_true, beq_iff_eq] at ht
  refine ⟨t, ?_, answersOwn_of_keepsExchange _ hreach⟩
  rw [List.map_congr_left fun call hcall => Call.state_of_notFound (ht.1 call hcall)]
  exact (List.map_map ..).symm.trans (congrArg (List.map fun host =>
    CallState.returned (.error (.hostNotFound host)) .varlink) ht.2)

/-- Call `"a"` is dropped while it writes, after the whole request has gone out.
Call `"b"` then writes its own request on the same connection, reads the reply
to the request for `"a"`, and returns what it says. -/
theorem exists_not_answersOwn :
    ∃ t, (system fun _ => none).Reaches (fun _ _ => True) t ∧ ¬ AnswersOwn t := by
  have hrun : ((system fun _ => none).run .initial
      [.resolve "a".toList 80, .socket 0 true, .connect 0 true,
        .drop 0 (requestLength "a".toList), .serve 0 errorReply.bytes, .resolve "b".toList 80,
        .write 1 (some (requestLength "b".toList)),
        .read 1 (some (errorReply.bytes.length + 1))]).any (fun t =>
          (t.calls[1]?).any Call.notFound && t.sockets.all fun socket =>
            (socket.requests.zip socket.replies).all fun r => r.1.any (·.1 == 0)) = true := by
    decide +kernel
  obtain ⟨t, hreach, ht⟩ := System.exists_run hrun
  rw [Bool.and_eq_true] at ht
  obtain ⟨call, hcall, hstate⟩ := (Option.any_eq_true _ _).mp ht.1
  refine ⟨t, hreach, fun hown => ?_⟩
  obtain ⟨s, socket, k, request, frame, hs, -, hrequest, hreply, -⟩ :=
    hown 1 call _ hcall (Call.state_of_notFound hstate) trivial
  -- the only request with a reply was written by the other call
  have hanswered := List.all_eq_true.mp (List.all_eq_true.mp ht.2 _ (List.mem_of_getElem? hs)) _
    (List.mem_of_getElem? ((List.getElem?_zip_eq_some (z := (_, frame))).mpr ⟨hrequest, hreply⟩))
  simp at hanswered

end Kimojio.Resolver
