import Kimojio.Json.Viable
import Kimojio.Resolver.ReplySchema

/-!
# Kimojio.Resolver.ReplyDecode

The decoder of `Kimojio.Resolver.VarlinkReply` reads a reply as
`Kimojio.Resolver.ReplySchema` describes it.

`Decoder.step` is one token of the decoder as a reading. The flat state
machine is compared with the recursive reading level by level: each level of
the schema stands in one state of the machine, and the members or elements of
its container lead from that state back to it.
-/

namespace Kimojio.Resolver

open Json Rfc8259
open Reading (Simulates)

/-! ## one token -/

/-- A visitor that stops at every item. -/
def itemVisitor : ReplyVisitor Unit Item := .ofCall fun item s => (some item, s)

/-- What the decoder makes of a token, and the decoder afterwards. -/
def Decoder.read (d : Decoder) (tok : Token) : Effect × Decoder :=
  match (bridge itemVisitor).call tok (d, ()) with
  | (none, d', _) => (.quiet, d')
  | (some (.ok item), d', _) => (.item item, d')
  | (some (.error kind), d', _) => (.violation kind, d')

/-- One token as a reading: a violation stops it. -/
def Decoder.step (d : Decoder) (tok : Token) : Read Decoder where
  events := [(d.read tok).1]
  result :=
    match (d.read tok).1 with
    | .violation _ => none
    | _ => some (d.read tok).2

/-- The answer on the channel of the caller. -/
def Effect.answer (v : ReplyVisitor σ Out) (s : σ) :
    Effect → Option (Except ReplyErrorKind Out) × σ
  | .quiet => (none, s)
  | .item i => ((v.call i s).1.map .ok, (v.call i s).2)
  | .violation kind => (some (.error kind), s)

theorem reject_answer (v : ReplyVisitor σ Out) (s : σ)
    (h : (bridge itemVisitor).call tok (d, ()) = reject r ()) :
    (reject r s : Option (Except ReplyErrorKind Out) × Decoder × σ) =
      (((d.read tok).1.answer v s).1, (d.read tok).2, ((d.read tok).1.answer v s).2) := by
  rw [Decoder.read, h]
  obtain ⟨_ | kind, d'⟩ := r <;> rfl

/-- The visitor of the caller sees the items, and nothing else of the bridge. -/
theorem bridge_call (v : ReplyVisitor σ Out) (tok : Token) (d : Decoder) (s : σ) :
    (bridge v).call tok (d, s) =
      (((d.read tok).1.answer v s).1, (d.read tok).2, ((d.read tok).1.answer v s).2) := by
  cases tok with
  | objectStart | arrayStart | arrayEnd | key _ | escapeKey _ | boolean _ | null =>
    exact reject_answer v s rfl
  | objectEnd =>
    simp only [Visitor.call, bridge, Decoder.read]
    split <;> first | rfl | (split <;> rfl)
  | string | escapeString =>
    simp only [Visitor.call, bridge, Decoder.read]
    split <;> rfl
  | number text =>
    by_cases hs : d.state ≠ .parametersFlags
    · have hcall : ∀ {σ Out} (v : ReplyVisitor σ Out) (s : σ),
          (bridge v).call (.number text) (d, s) = reject (d.number text) s := by
        intro σ Out v s
        simp only [Visitor.call, bridge, if_pos hs]
      rw [hcall]
      exact reject_answer v s (hcall _ _)
    · simp only [Visitor.call, bridge, Decoder.read, if_neg hs]
      split <;> rfl

/-- The tokens of a list, read by the decoder. -/
def Decoder.reads (d : Decoder) (toks : List Token) : Read Decoder := toks.foldlM Decoder.step d

namespace Decoder

@[simp] theorem reads_cons (d : Decoder) (tok : Token) (toks : List Token) :
    d.reads (tok :: toks) = d.step tok >>= fun d => d.reads toks := rfl

theorem reads_append (d : Decoder) (toks toks' : List Token) :
    d.reads (toks ++ toks') = d.reads toks >>= fun d => d.reads toks' :=
  List.foldlM_append ..

theorem sim_report {d d' : Decoder} (he : ∀ kind, e ≠ .violation kind) (h : d.read tok = (e, d')) :
    Simulates (fun _ x => x = d') (Reading.report e) (d.step tok) := by
  refine ⟨by rw [step, h]; rfl, ?_⟩
  rw [step, h]
  cases e with
  | violation kind => exact absurd rfl (he kind)
  | quiet | item => exact .some rfl

theorem sim_accept {d d' : Decoder} (h : d.read tok = (.quiet, d')) :
    Simulates (fun _ x => x = d') accept (d.step tok) :=
  sim_report (by simp) h

theorem sim_step {d : Decoder} (h : Simulates R x (d.step tok)) :
    Simulates R x (d.reads [tok]) := by
  rwa [reads_cons, show (fun d : Decoder => d.reads []) = pure from rfl, bind_pure]

/-- A token that violates the schema; nothing after it is read. -/
theorem sim_violate {d : Decoder} (h : (d.read tok).1 = .violation kind) (R : α → Decoder → Prop)
    (toks : List Token) : Simulates R (violate kind) (d.reads (tok :: toks)) := by
  have hnone : (d.step tok).result = none := by simp only [step, h]
  rw [reads_cons, Reading.bind_eq_of_none hnone]
  exact ⟨by simp [violate, Reading.stop, step, h], .none⟩

theorem sim_scalar {d : Decoder} (next : α → Decoder)
    (hok : ∀ a, r = .ok a → d.read tok = (effect a, next a))
    (hne : ∀ a kind, effect a ≠ .violation kind)
    (herr : ∀ kind, r = .error kind → (d.read tok).1 = .violation kind) :
    Simulates (fun a x => x = next a) (scalar r effect) (d.reads [tok]) := by
  cases r with
  | error kind => exact sim_violate (herr kind rfl) _ []
  | ok a =>
    exact .bind (sim_report (hne a) (hok a rfl)) fun _ _ h => .pure h

/-! ## values that the schema does not allow -/

/-- The first token of a value. -/
def firstToken : Value → Token
  | .null => .null
  | .boolean value => .boolean value
  | .number text => .number text
  | .string body => stringToken body
  | .array _ => .arrayStart
  | .object _ => .objectStart

theorem tokensOf_eq_cons (v : Value) : ∃ toks, tokensOf v = firstToken v :: toks := by
  cases v <;> exact ⟨_, by rw [tokensOf]; rfl⟩

/-- The values that a state takes. -/
def Takes : State → Value → Bool
  | .skip, _ => true
  | .start, .object _ | .replyParameters, .object _ | .addresses, .object _ => true
  | .parametersAddresses, .array _ | .addressOctetsStart, .array _ => true
  | .replyError, .string _ | .parametersName, .string _ => true
  | .parametersFlags, .number _ | .addressIfindex, .number _ | .addressFamily, .number _
  | .addressOctets, .number _ => true
  | _, _ => false

theorem read_rejected (hcall : (bridge itemVisitor).call tok (d, ()) = reject r ())
    (h : r.1 = some kind) : (d.read tok).1 = .violation kind := by
  obtain ⟨kind', d'⟩ := r
  cases h
  rw [Decoder.read, hcall]
  rfl

theorem read_accepted (hcall : (bridge itemVisitor).call tok (d, ()) = reject (none, d') ()) :
    d.read tok = (.quiet, d') := by
  rw [Decoder.read, hcall]
  rfl

/-- Every number but the flags belongs to the decoder alone. -/
theorem call_number (h : d.state ≠ .parametersFlags) :
    (bridge itemVisitor).call (.number text) (d, ()) = reject (d.number text) () := by
  simp only [Visitor.call, bridge, if_pos h]

/-- A member name is compared in the form it has. -/
theorem call_key (d : Decoder) (name : Str) :
    (bridge itemVisitor).call (keyToken name) (d, ()) = reject (d.member (named name)) () := by
  rw [keyToken]
  split
  · next h =>
    have hnamed : named name = EscapeString.eqUnescaped ⟨name⟩ := by
      funext candidate
      rw [named, if_pos h]
    rw [hnamed]
    rfl
  · next h =>
    have hnamed : named name = fun candidate => decide (name = candidate) := by
      funext candidate
      rw [named, if_neg h]
    rw [hnamed]
    rfl

/-- An opening token within the depth limit. -/
theorem openContainer_of_lt {d : Decoder} (h : d.depth < maxDepth) :
    d.openContainer = (none, { d with depth := d.depth + 1 }) := by
  have hd : ¬ d.depth + 1 > maxDepth := by omega
  simp only [openContainer, if_neg hd]

theorem openContainer_of_not_lt {d : Decoder} (h : ¬ d.depth < maxDepth) :
    d.openContainer = (some .depthExceeded, { d with depth := d.depth + 1 }) := by
  have hd : d.depth + 1 > maxDepth := by omega
  simp only [openContainer, if_pos hd]

/-- Every other value is a violation at its first token. -/
theorem read_mismatch {d : Decoder} (h : Takes d.state v = false) :
    (d.read (firstToken v)).1 = .violation (mismatch d.depth v) := by
  have hne : ∀ state, Takes state v = true → d.state ≠ state := by
    rintro state ht rfl
    rw [h] at ht
    cases ht
  cases v with
  | null | boolean =>
    refine read_rejected rfl ?_
    rw [discardScalar, if_neg (hne _ rfl)]
    rfl
  | number text =>
    refine read_rejected (call_number (hne _ rfl)) ?_
    rw [number]
    split <;> next hs => first | exact absurd hs (hne _ rfl) | rfl
  | string body =>
    rw [firstToken, stringToken]
    split
    all_goals
      refine read_rejected (r := (some .unexpectedType, d)) ?_ rfl
      simp only [Visitor.call, bridge]
      split <;> next hs => first | exact absurd hs (hne _ rfl) | rfl
  | array vs =>
    refine read_rejected rfl ?_
    rw [arrayStart, mismatch]
    by_cases hd : d.depth < maxDepth
    · rw [openContainer_of_lt hd, if_pos hd]
      dsimp only
      split <;> next hs => first | exact absurd hs (hne _ rfl) | rfl
    · rw [openContainer_of_not_lt hd, if_neg hd]
  | object ms =>
    refine read_rejected rfl ?_
    rw [objectStart, mismatch]
    by_cases hd : d.depth < maxDepth
    · rw [openContainer_of_lt hd, if_pos hd]
      dsimp only
      split <;> next hs => first | exact absurd hs (hne _ rfl) | rfl
    · rw [openContainer_of_not_lt hd, if_neg hd]

theorem sim_mismatch {d : Decoder} (h : Takes d.state v = false) (R : α → Decoder → Prop) :
    Simulates R (violate (mismatch d.depth v)) (d.reads (tokensOf v)) := by
  obtain ⟨toks, htoks⟩ := tokensOf_eq_cons v
  rw [htoks]
  exact sim_violate (read_mismatch h) R toks

/-! ## values that the schema does not name -/

theorem read_skip_scalar {d : Decoder} (hs : d.state = .skip) (hv : tokensOf v = [firstToken v]) :
    d.read (firstToken v) = (.quiet, d.endSkippedValue) := by
  cases v with
  | null | boolean =>
    exact read_accepted (by rw [firstToken]; simp [Visitor.call, bridge, discardScalar, hs])
  | number text =>
    refine read_accepted ?_
    rw [firstToken, call_number (by simp [hs]), number, hs]
  | string body =>
    rw [firstToken, stringToken]
    split <;> exact read_accepted (by simp [Visitor.call, bridge, hs, reject])
  | array | object => simp [tokensOf] at hv

theorem sim_skip_scalar {d : Decoder} (hs : d.state = .skip) (hv : tokensOf v = [firstToken v])
    (hskip : skip d.depth v = accept) :
    Simulates (fun _ x => x = d.endSkippedValue) (skip d.depth v) (d.reads (tokensOf v)) := by
  rw [hv, hskip]
  exact sim_step (sim_accept (read_skip_scalar hs hv))

/-- The decoder inside one more container of a skipped value. -/
def openSkipped (d : Decoder) : Decoder :=
  { d with depth := d.depth + 1, skipDepth := d.skipDepth + 1 }

/-- The start of a container of a skipped value. -/
theorem sim_skip_open {d : Decoder} (hs : d.state = .skip) (isArray : Bool) :
    Simulates (fun _ x => x = d.openSkipped) (openAt d.depth) (d.step (startToken isArray)) := by
  by_cases hd : d.depth < maxDepth
  · rw [openAt, if_pos hd]
    refine sim_accept (read_accepted ?_)
    cases isArray <;>
      simp [startToken, Visitor.call, bridge, objectStart, arrayStart, openContainer_of_lt hd, hs,
        openSkipped]
  · rw [openAt, if_neg hd]
    have hviol : (d.read (startToken isArray)).1 = .violation .depthExceeded := by
      cases isArray
      · exact read_rejected rfl (by rw [objectStart, openContainer_of_not_lt hd])
      · exact read_rejected rfl (by rw [arrayStart, openContainer_of_not_lt hd])
    have hsim := sim_violate hviol (fun (_ : Unit) x => x = d.openSkipped) []
    rwa [reads_cons, show (fun d : Decoder => d.reads []) = pure from rfl, bind_pure] at hsim

/-- The end of a container of a skipped value. -/
theorem read_skip_close {d : Decoder} (hs : d.state = .skip) (isArray : Bool) :
    d.read (endToken isArray) = (.quiet, d.close.closeSkipped) := by
  have hclose : d.close.state = .skip := hs
  refine read_accepted ?_
  cases isArray <;> simp [endToken, Visitor.call, bridge, arrayEnd, hclose, reject]

theorem read_skip_key {d : Decoder} (hs : d.state = .skip) (name : Str) :
    d.read (keyToken name) = (.quiet, d) := by
  refine read_accepted ?_
  rw [call_key, member, hs]

/-- Inside a skipped container the end of a value changes nothing. -/
theorem endSkippedValue_of_pos {d : Decoder} (h : 0 < d.skipDepth) : d.endSkippedValue = d := by
  rw [endSkippedValue, if_neg (by omega)]

mutual
theorem sim_skip (v : Value) {d : Decoder} (hs : d.state = .skip) :
    Simulates (fun _ x => x = d.endSkippedValue) (skip d.depth v) (d.reads (tokensOf v)) := by
  match v with
  | .null | .boolean _ | .number _ | .string _ =>
    exact sim_skip_scalar hs (by rw [tokensOf]; rfl) (by rw [skip] <;> simp)
  | .array vs =>
    rw [tokensOf, reads_cons, skip]
    refine .bind (sim_skip_open hs true) ?_
    rintro - _ rfl
    rw [reads_append]
    refine .bind (sim_skipElements vs (d := d.openSkipped) hs (Nat.succ_pos _)) ?_
    rintro - _ rfl
    exact sim_step (sim_accept (read_skip_close (d := d.openSkipped) hs true))
  | .object ms =>
    rw [tokensOf, reads_cons, skip]
    refine .bind (sim_skip_open hs false) ?_
    rintro - _ rfl
    rw [reads_append]
    refine .bind (sim_skipMembers ms (d := d.openSkipped) hs (Nat.succ_pos _)) ?_
    rintro - _ rfl
    exact sim_step (sim_accept (read_skip_close (d := d.openSkipped) hs false))

theorem sim_skipElements (vs : List Value) {d : Decoder} (hs : d.state = .skip)
    (hpos : 0 < d.skipDepth) :
    Simulates (fun _ x => x = d) (skipElements d.depth vs) (d.reads (tokensOfElements vs)) := by
  match vs with
  | [] => exact .pure rfl
  | v :: vs =>
    rw [tokensOfElements, reads_append, skipElements]
    refine .bind (sim_skip v hs) ?_
    rintro - _ rfl
    rw [endSkippedValue_of_pos hpos]
    exact sim_skipElements vs hs hpos

theorem sim_skipMembers (ms : List (List Char × Value)) {d : Decoder} (hs : d.state = .skip)
    (hpos : 0 < d.skipDepth) :
    Simulates (fun _ x => x = d) (skipMembers d.depth ms) (d.reads (tokensOfMembers ms)) := by
  match ms with
  | [] => exact .pure rfl
  | (k, v) :: ms =>
    rw [tokensOfMembers, reads_cons, skipMembers]
    refine .bind (sim_accept (read_skip_key hs k)) ?_
    rintro - _ rfl
    rw [reads_append]
    refine .bind (sim_skip v hs) ?_
    rintro - _ rfl
    rw [endSkippedValue_of_pos hpos]
    exact sim_skipMembers ms hs hpos
end

end Decoder

/-! ## the levels of the schema -/

/-- The decoder stands in `state`, inside `depth` containers, and has seen `seen`. -/
structure At (state : State) (depth : Nat) (seen : Seen) (d : Decoder) : Prop where
  state_eq : d.state = state
  depth_eq : d.depth = depth
  error_eq : d.seenError = seen.error
  addresses_eq : d.seenAddresses = seen.addresses

/-- The buffer holds these octets, and zeros after them. -/
structure Holds (octets : List UInt8) (p : PendingAddress) : Prop where
  hasOctets : p.hasOctets = true
  octets_eq : p.octets = Vector.ofFn fun i => octets.getD i 0
  length_eq : p.length = octets.length
  length_le : octets.length ≤ maxAddressBytes

/-- The pending address holds the members of `entry`, the octets apart. -/
structure Numbers (entry : Entry) (p : PendingAddress) : Prop where
  ifindex_eq : p.ifindex = entry.ifindex
  family_eq : p.family = entry.family

/-- The octets of the entry, if any. -/
def Octets (entry : Entry) (p : PendingAddress) : Prop :=
  match entry.address with
  | some octets => Holds octets p
  | none => p.hasOctets = false

/-- Another member leaves the octets as they are. -/
theorem Octets.of_eq (h : Octets entry p)
    (he : entry'.address = entry.address) (ho : p'.octets = p.octets) (hl : p'.length = p.length)
    (hh : p'.hasOctets = p.hasOctets) : Octets entry' p' := by
  rw [Octets] at h ⊢
  rw [he]
  split
  · next octets heq =>
    rw [heq] at h
    exact ⟨hh.trans h.hasOctets, ho.trans h.octets_eq, hl.trans h.length_eq, h.length_le⟩
  · next heq =>
    rw [heq] at h
    exact hh.trans h

/-- Between the members of an entry. -/
structure InEntry (seen : Seen) (entry : Entry) (d : Decoder) : Prop where
  pos : At .address 4 seen d
  numbers : Numbers entry d.address
  octets : Octets entry d.address

/-- Between the elements of an `address` array. -/
structure InOctets (seen : Seen) (entry : Entry) (octets : List UInt8) (d : Decoder) : Prop where
  pos : At .addressOctets 5 seen d
  numbers : Numbers entry d.address
  holds : Holds octets d.address

open Decoder (sim_accept sim_report sim_step sim_violate sim_scalar sim_mismatch sim_skip
  read_accepted read_rejected call_key call_number reads_cons reads_append openContainer_of_lt
    Takes)

theorem At.to (h : At state depth seen d) (state' : State) :
    At state' depth seen { d with state := state' } :=
  ⟨rfl, h.depth_eq, h.error_eq, h.addresses_eq⟩

/-- A value after which the skip state is left. -/
theorem At.sim_skip (h : At state depth seen d) (v : Value) :
    Simulates (fun _ x => At state depth seen x ∧ x.address = d.address) (skip depth v)
      ((d.beginSkip state).reads (tokensOf v)) := by
  have hsim := Decoder.sim_skip v (d := d.beginSkip state) rfl
  have hdepth : (d.beginSkip state).depth = depth := h.depth_eq
  rw [hdepth] at hsim
  refine hsim.mono ?_
  rintro - _ rfl
  exact ⟨⟨rfl, h.depth_eq, h.error_eq, h.addresses_eq⟩, rfl⟩

/-- Every value of another type is a violation. -/
theorem At.sim_mismatch (h : At state depth seen d) (hv : Takes state v = false)
    (R : α → Decoder → Prop) :
    Simulates R (violate (mismatch depth v)) (d.reads (tokensOf v)) := by
  rw [← h.depth_eq]
  exact Decoder.sim_mismatch (by rw [h.state_eq]; exact hv) R

/-! ### the octets of an address -/

/-- The buffer with one more octet. -/
def PendingAddress.push (p : PendingAddress) (octet : UInt8) : PendingAddress :=
  { p with octets := p.octets.setIfInBounds p.length octet, length := min 255 (p.length + 1) }

theorem Decoder.pushOctet_eq (d : Decoder) (text : Str) :
    d.pushOctet text =
      if d.address.length < maxAddressBytes then
        (octetValue text).map fun octet => { d with address := d.address.push octet }
      else .error .addressTooLong := by
  by_cases h : d.address.length < maxAddressBytes
  · have h' : ¬ d.address.length ≥ maxAddressBytes := by omega
    simp only [pushOctet, if_neg h', if_pos h, octetValue, bind, Except.bind]
    cases integer text with
    | error kind => rfl
    | ok value =>
      dsimp only
      cases tryFrom 0 255 value <;> rfl
  · have h' : d.address.length ≥ maxAddressBytes := by omega
    simp only [pushOctet, if_pos h', if_neg h]
    rfl

theorem number_octets {d : Decoder} (h : d.state = .addressOctets) (text : Str) :
    d.number text =
      match d.pushOctet text with
      | .ok d => (none, d)
      | .error kind => (some kind, d) := by
  obtain ⟨state, _, _, _, _, _, _⟩ := d
  cases h
  rfl

theorem Holds.push (h : Holds octets p) (hlt : octets.length < maxAddressBytes) (octet : UInt8) :
    Holds (octets ++ [octet]) (p.push octet) where
  hasOctets := h.hasOctets
  octets_eq := by
    rw [PendingAddress.push, h.octets_eq, h.length_eq]
    ext i hi
    rw [Vector.getElem_setIfInBounds hi, Vector.getElem_ofFn, Vector.getElem_ofFn]
    simp only [List.getD_eq_getElem?_getD, List.getElem?_append]
    split
    · next heq => simp [← heq]
    · next hne =>
      split
      · rfl
      · next hge =>
        rw [List.getElem?_eq_none (by omega), List.getElem?_eq_none (by simp; omega)]
  length_eq := by
    simp only [PendingAddress.push, h.length_eq, List.length_append, List.length_singleton]
    rw [maxAddressBytes] at hlt
    omega
  length_le := by
    rw [List.length_append, List.length_singleton]
    omega

theorem sim_octet (h : InOctets seen entry octets d) (v : Value) :
    Simulates (fun octets' x => InOctets seen entry octets' x) (readOctet octets v)
      (d.reads (tokensOf v)) := by
  cases v with
  | number text =>
    have hcall : (bridge itemVisitor).call (.number text) (d, ()) = reject (d.number text) () :=
      call_number (by simp [h.pos.state_eq])
    have hnumber : d.number text =
        match d.pushOctet text with
        | .ok d => (none, d)
        | .error kind => (some kind, d) := number_octets h.pos.state_eq text
    rw [d.pushOctet_eq, h.holds.length_eq] at hnumber
    rw [tokensOf, readOctet]
    by_cases hlt : octets.length < maxAddressBytes
    · rw [if_pos hlt] at hnumber ⊢
      refine (sim_scalar (fun octet => { d with address := d.address.push octet }) ?_ (by simp)
        ?_).bind_pure_left ?_
      · intro octet hoctet
        rw [hoctet] at hnumber
        exact read_accepted (by rw [hcall, hnumber]; rfl)
      · intro kind hkind
        rw [hkind] at hnumber
        exact read_rejected hcall (by rw [hnumber]; rfl)
      · rintro octet _ rfl
        exact ⟨⟨h.pos.state_eq, h.pos.depth_eq, h.pos.error_eq, h.pos.addresses_eq⟩,
          ⟨h.numbers.ifindex_eq, h.numbers.family_eq⟩, h.holds.push hlt octet⟩
    · rw [if_neg hlt] at hnumber ⊢
      exact sim_violate (read_rejected hcall (by rw [hnumber])) _ []
  | null | boolean | string | array | object => exact h.pos.sim_mismatch rfl _

/-- A token that leads from one position to the next. -/
def Leads (d : Decoder) (tok : Token) (e : Effect) (P : Decoder → Prop) : Prop :=
  ∃ d', d.read tok = (e, d') ∧ P d'

theorem Leads.sim (h : Leads d tok e P) (he : ∀ kind, e ≠ .violation kind) :
    Simulates (fun _ x => P x) (Reading.report e) (d.step tok) := by
  obtain ⟨d', hread, hP⟩ := h
  refine (sim_report he hread).mono ?_
  rintro - _ rfl
  exact hP

theorem Leads.sim_accept (h : Leads d tok .quiet P) :
    Simulates (fun _ x => P x) accept (d.step tok) :=
  h.sim (by simp)

theorem leads_of_call (hcall : (bridge itemVisitor).call tok (d, ()) = reject r ())
    (h : r.1 = none ∧ P r.2) : Leads d tok .quiet P := by
  obtain ⟨kind, d'⟩ := r
  obtain ⟨rfl, hP⟩ := h
  exact ⟨d', read_accepted hcall, hP⟩

theorem leads_octets (h : At .addressOctetsStart 4 seen d) (hn : Numbers entry d.address) :
    Leads d .arrayStart .quiet (InOctets seen entry []) := by
  have hopen := openContainer_of_lt (d := d) (by rw [h.depth_eq]; decide)
  refine leads_of_call (r := d.arrayStart) rfl ?_
  simp only [Decoder.arrayStart, hopen, h.state_eq]
  exact ⟨trivial, ⟨rfl, by rw [h.depth_eq], h.error_eq, h.addresses_eq⟩,
    ⟨hn.ifindex_eq, hn.family_eq⟩, ⟨rfl, by ext; simp, rfl, by decide⟩⟩

theorem leads_endOctets (h : InOctets seen entry octets d) :
    Leads d .arrayEnd .quiet (InEntry seen { entry with address := some octets }) := by
  refine leads_of_call (r := d.arrayEnd) rfl ?_
  simp only [Decoder.arrayEnd, Decoder.close, h.pos.state_eq]
  exact ⟨trivial, ⟨rfl, by rw [h.pos.depth_eq], h.pos.error_eq, h.pos.addresses_eq⟩,
    ⟨h.numbers.ifindex_eq, h.numbers.family_eq⟩, h.holds⟩

theorem sim_address (h : At .addressOctetsStart 4 seen d) (hn : Numbers entry d.address)
    (v : Value) :
    Simulates (fun octets x => InEntry seen { entry with address := some octets } x)
      (readAddress v) (d.reads (tokensOf v)) := by
  cases v with
  | array vs =>
    rw [tokensOf, reads_cons, readAddress]
    refine .bind (leads_octets h hn).sim_accept fun _ d₁ h₁ => ?_
    rw [reads_append, tokensOfElements_eq]
    refine .bind (.foldlM (fun _ _ v h => sim_octet h v) vs h₁) fun octets d₂ h₂ => ?_
    exact (sim_step (leads_endOctets h₂).sim_accept).bind_pure_left fun _ _ h => h
  | null | boolean | string | number | object => exact h.sim_mismatch rfl _

/-! ### address entries -/

theorem leads_entry (h : At .addresses 3 seen d) :
    Leads d .objectStart .quiet (InEntry seen {}) := by
  have hopen := openContainer_of_lt (d := d) (by rw [h.depth_eq]; decide)
  refine leads_of_call (r := d.objectStart) rfl ?_
  simp only [Decoder.objectStart, hopen, h.state_eq]
  exact ⟨trivial, ⟨rfl, by rw [h.depth_eq], h.error_eq, h.addresses_eq⟩, ⟨rfl, rfl⟩, rfl⟩

/-- What the decoder makes of the end of an entry. -/
theorem read_endEntry {d : Decoder} (h : d.state = .address) :
    d.read .objectEnd =
      match d.takeAddress with
      | .ok address => (.item (.address address), { d.close with state := .addresses })
      | .error kind => (.violation kind, { d.close with state := .addresses }) := by
  have htake : ({ d.close with state := .addresses } : Decoder).takeAddress = d.takeAddress := rfl
  simp only [Decoder.read, Visitor.call, bridge, show d.close.state = .address from h, htake]
  cases d.takeAddress <;> rfl

theorem sim_endEntry (h : InEntry seen entry d) :
    Simulates (fun _ x => At .addresses 3 seen x) (endEntry entry) (d.reads [.objectEnd]) := by
  have hread := read_endEntry h.pos.state_eq
  have hat : At .addresses 3 seen { d.close with state := .addresses } :=
    ⟨rfl, by simp only [Decoder.close, h.pos.depth_eq], h.pos.error_eq, h.pos.addresses_eq⟩
  have hoctets := h.octets
  rw [Decoder.takeAddress, h.numbers.family_eq] at hread
  rw [Octets] at hoctets
  rw [endEntry]
  cases hfam : entry.family with
  | none =>
    rw [hfam] at hread
    exact sim_violate (by rw [hread]) _ []
  | some family =>
    cases haddr : entry.address with
    | none =>
      rw [haddr] at hoctets
      rw [hfam, hoctets] at hread
      exact sim_violate (by rw [hread]) _ []
    | some octets =>
      rw [haddr] at hoctets
      rw [hfam, hoctets.hasOctets, h.numbers.ifindex_eq, hoctets.octets_eq,
        hoctets.length_eq] at hread
      exact sim_step (Leads.sim ⟨_, hread, hat⟩ (by simp))

/-- The number of an `ifindex` or a `family`. -/
theorem sim_entryNumber (h : At state 4 seen d)
    (hs : state = .addressIfindex ∨ state = .addressFamily) (next : Int → Decoder)
    (hnumber : ∀ text, d.number text =
      match integerI32 text with
      | .ok value => (none, next value)
      | .error kind => (some kind, d)) (v : Value) :
    Simulates (fun value x => x = next value) (scalar (asNumber integerI32 4 v) fun _ => .quiet)
      (d.reads (tokensOf v)) := by
  cases v with
  | number text =>
    have hcall : (bridge itemVisitor).call (.number text) (d, ()) = reject (d.number text) () :=
      call_number (by rw [h.state_eq]; rcases hs with rfl | rfl <;> simp)
    rw [tokensOf, asNumber]
    refine sim_scalar next ?_ (by simp) ?_
    · intro value hvalue
      exact read_accepted (by rw [hcall, hnumber, hvalue])
    · intro kind hkind
      exact read_rejected hcall (by rw [hnumber, hkind])
  | null | boolean | string | array | object =>
    exact h.sim_mismatch (by rcases hs with rfl | rfl <;> rfl) _

/-- A member whose name leads to `d'`, where its value is read. -/
theorem sim_member {d d' : Decoder} (hname : d.member (named name) = (none, d'))
    (hvalue : Simulates R x (d'.reads toks)) :
    Simulates R (accept >>= fun _ => x) (d.reads (keyToken name :: toks)) := by
  have hcall := call_key d name
  rw [hname] at hcall
  rw [reads_cons]
  refine .bind (sim_accept (read_accepted hcall)) ?_
  rintro - _ rfl
  exact hvalue

theorem sim_entryMember (h : InEntry seen entry d) (m : List Char × Value) :
    Simulates (fun entry' x => InEntry seen entry' x) (readEntryMember entry m)
      (d.reads (keyToken m.1 :: tokensOf m.2)) := by
  obtain ⟨name, v⟩ := m
  have hstate := h.pos.state_eq
  rw [readEntryMember]
  split
  · next hname =>
    refine sim_member (by simp only [Decoder.member, hstate, if_pos hname])
      ((sim_entryNumber (h.pos.to .addressIfindex) (.inl rfl)
        (fun value => { d with
          address := { d.address with ifindex := some value }, state := .address })
        (fun _ => rfl) v).bind_pure_left ?_)
    rintro value _ rfl
    exact ⟨⟨rfl, h.pos.depth_eq, h.pos.error_eq, h.pos.addresses_eq⟩,
      ⟨rfl, h.numbers.family_eq⟩, h.octets.of_eq rfl rfl rfl rfl⟩
  split
  · next h₁ hname =>
    refine sim_member (by simp only [Decoder.member, hstate, if_neg h₁, if_pos hname])
      ((sim_entryNumber (h.pos.to .addressFamily) (.inr rfl)
        (fun value => { d with
          address := { d.address with family := some value }, state := .address })
        (fun _ => rfl) v).bind_pure_left ?_)
    rintro value _ rfl
    exact ⟨⟨rfl, h.pos.depth_eq, h.pos.error_eq, h.pos.addresses_eq⟩,
      ⟨h.numbers.ifindex_eq, rfl⟩, h.octets.of_eq rfl rfl rfl rfl⟩
  split
  · next h₁ h₂ hname =>
    exact sim_member (by simp only [Decoder.member, hstate, if_neg h₁, if_neg h₂, if_pos hname])
      ((sim_address (h.pos.to .addressOctetsStart) h.numbers v).bind_pure_left fun _ _ h => h)
  · next h₁ h₂ h₃ =>
    refine sim_member (by simp only [Decoder.member, hstate, if_neg h₁, if_neg h₂, if_neg h₃])
      ((h.pos.sim_skip v).bind_pure_left ?_)
    rintro - d' ⟨hat, haddr⟩
    exact ⟨hat, haddr ▸ h.numbers, haddr ▸ h.octets⟩

theorem sim_entry (h : At .addresses 3 seen d) (v : Value) :
    Simulates (fun _ x => At .addresses 3 seen x) (readEntry v) (d.reads (tokensOf v)) := by
  cases v with
  | object ms =>
    rw [tokensOf, reads_cons, readEntry]
    refine .bind (leads_entry h).sim_accept fun _ d₁ h₁ => ?_
    rw [reads_append, tokensOfMembers_eq]
    exact .bind (.foldlM (fun _ _ m h => sim_entryMember h m) ms h₁) fun _ _ h₂ => sim_endEntry h₂
  | null | boolean | string | number | array => exact h.sim_mismatch rfl _

/-! ### the members of `parameters` and of the reply -/

/-- The start of the reply or of `parameters`. -/
theorem leads_objectStart (h : At state depth seen d) (hd : depth < maxDepth)
    (hs : state = .start ∧ state' = .reply ∨ state = .replyParameters ∧ state' = .parameters) :
    Leads d .objectStart .quiet (At state' (depth + 1) seen) := by
  have hopen := openContainer_of_lt (d := d) (by rw [h.depth_eq]; exact hd)
  refine leads_of_call (r := d.objectStart) rfl ?_
  rcases hs with ⟨rfl, rfl⟩ | ⟨rfl, rfl⟩
  all_goals
    simp only [Decoder.objectStart, hopen, h.state_eq]
    exact ⟨trivial, rfl, by rw [h.depth_eq], h.error_eq, h.addresses_eq⟩

/-- The end of the reply or of `parameters`. -/
theorem leads_objectEnd (h : At state depth seen d)
    (hs : state = .reply ∧ state' = .complete ∨ state = .parameters ∧ state' = .reply) :
    Leads d .objectEnd .quiet (At state' (depth - 1) seen) := by
  have hclose : d.close.state = state := h.state_eq
  refine leads_of_call (r := (none, { d.close with state := state' })) ?_ ?_
  · rcases hs with ⟨rfl, rfl⟩ | ⟨rfl, rfl⟩ <;> simp only [Visitor.call, bridge, hclose] <;> rfl
  · exact ⟨rfl, rfl, by simp only [Decoder.close, h.depth_eq], h.error_eq, h.addresses_eq⟩

theorem leads_addresses (h : At .parametersAddresses 2 seen d) :
    Leads d .arrayStart .quiet (At .addresses 3 { seen with addresses := true }) := by
  have hopen := openContainer_of_lt (d := d) (by rw [h.depth_eq]; decide)
  refine leads_of_call (r := d.arrayStart) rfl ?_
  simp only [Decoder.arrayStart, hopen, h.state_eq]
  exact ⟨trivial, rfl, by rw [h.depth_eq], h.error_eq, rfl⟩

theorem leads_endAddresses (h : At .addresses 3 seen d) :
    Leads d .arrayEnd .quiet (At .parameters 2 seen) := by
  refine leads_of_call (r := d.arrayEnd) rfl ?_
  simp only [Decoder.arrayEnd, Decoder.close, h.state_eq]
  exact ⟨trivial, rfl, by rw [h.depth_eq], h.error_eq, h.addresses_eq⟩

theorem sim_addresses (h : At .parametersAddresses 2 seen d) (v : Value) :
    Simulates (fun _ x => At .parameters 2 { seen with addresses := true } x) (readAddresses v)
      (d.reads (tokensOf v)) := by
  cases v with
  | array vs =>
    rw [tokensOf, reads_cons, readAddresses]
    refine .bind (leads_addresses h).sim_accept fun _ d₁ h₁ => ?_
    rw [reads_append, tokensOfElements_eq]
    refine .bind (.foldlM (fun _ _ v h => sim_entry h v) vs h₁) fun _ d₂ h₂ => ?_
    exact sim_step (leads_endAddresses h₂).sim_accept
  | null | boolean | string | number | object => exact h.sim_mismatch rfl _

theorem sim_name (h : At .parametersName 2 seen d) (v : Value) :
    Simulates (fun _ x => At .parameters 2 seen x) (readName v) (d.reads (tokensOf v)) := by
  cases v with
  | string body =>
    refine sim_step (Leads.sim ⟨{ d with state := .parameters }, ?_, h.to .parameters⟩ (by simp))
    rw [stringToken]
    split <;> simp only [Decoder.read, Visitor.call, bridge, h.state_eq] <;> rfl
  | null | boolean | array | number | object => exact h.sim_mismatch rfl _

theorem sim_flags (h : At .parametersFlags 2 seen d) (v : Value) :
    Simulates (fun _ x => At .parameters 2 seen x)
      (scalar (asNumber flagsValue 2 v) fun flags => .item (.flags flags))
      (d.reads (tokensOf v)) := by
  cases v with
  | number text =>
    have hread : d.read (.number text) =
        match flagsValue text with
        | .ok flags => (.item (.flags flags), { d with state := .parameters })
        | .error kind => (.violation kind, { d with state := .parameters }) := by
      simp only [Decoder.read, Visitor.call, bridge, h.state_eq, ne_eq, not_true_eq_false,
        if_false, flagsValue, bind, Except.bind]
      cases integer text with
      | error kind => rfl
      | ok value =>
        dsimp only
        cases tryFrom 0 (2 ^ 64 - 1) value <;> rfl
    rw [tokensOf, asNumber]
    refine (sim_scalar (fun _ => { d with state := .parameters }) ?_ (by simp) ?_).mono ?_
    · intro flags hflags
      rw [hread, hflags]
    · intro kind hkind
      rw [hread, hkind]
    · rintro - _ rfl
      exact h.to .parameters
  | null | boolean | string | array | object => exact h.sim_mismatch rfl _

theorem sim_parametersMember (h : At .parameters 2 seen d) (m : List Char × Value) :
    Simulates (fun seen' x => At .parameters 2 seen' x) (readParametersMember seen m)
      (d.reads (keyToken m.1 :: tokensOf m.2)) := by
  obtain ⟨name, v⟩ := m
  have hstate := h.state_eq
  rw [readParametersMember]
  split
  · next hname =>
    exact sim_member (by simp only [Decoder.member, hstate, if_pos hname])
      ((sim_addresses (h.to .parametersAddresses) v).bind_pure_left fun _ _ h => h)
  split
  · next h₁ hname =>
    exact sim_member (by simp only [Decoder.member, hstate, if_neg h₁, if_pos hname])
      ((sim_name (h.to .parametersName) v).bind_pure_left fun _ _ h => h)
  split
  · next h₁ h₂ hname =>
    exact sim_member (by simp only [Decoder.member, hstate, if_neg h₁, if_neg h₂, if_pos hname])
      ((sim_flags (h.to .parametersFlags) v).bind_pure_left fun _ _ h => h)
  · next h₁ h₂ h₃ =>
    exact sim_member (by simp only [Decoder.member, hstate, if_neg h₁, if_neg h₂, if_neg h₃])
      ((h.sim_skip v).bind_pure_left fun _ _ h => h.1)

theorem sim_parameters (h : At .replyParameters 1 seen d) (v : Value) :
    Simulates (fun seen' x => At .reply 1 seen' x) (readParameters seen v)
      (d.reads (tokensOf v)) := by
  cases v with
  | object ms =>
    rw [tokensOf, reads_cons, readParameters]
    refine .bind (leads_objectStart h (by decide) (.inr ⟨rfl, rfl⟩)).sim_accept fun _ d₁ h₁ => ?_
    rw [reads_append, tokensOfMembers_eq]
    refine .bind (.foldlM (fun _ _ m h => sim_parametersMember h m) ms h₁) fun _ d₂ h₂ => ?_
    exact (sim_step (leads_objectEnd h₂ (.inr ⟨rfl, rfl⟩)).sim_accept).bind_pure_left
      fun _ _ h => h
  | null | boolean | string | number | array => exact h.sim_mismatch rfl _

theorem sim_error (h : At .replyError 1 seen d) (v : Value) :
    Simulates (fun _ x => At .reply 1 { seen with error := true } x) (readError v)
      (d.reads (tokensOf v)) := by
  cases v with
  | string body =>
    rw [tokensOf, readError, stringToken]
    split
    · exact sim_violate (by simp only [Decoder.read, Visitor.call, bridge, h.state_eq]) _ []
    · refine sim_step (Leads.sim ⟨{ d with seenError := true, state := .reply }, ?_, ?_⟩ (by simp))
      · simp only [Decoder.read, Visitor.call, bridge, h.state_eq]
        rfl
      · exact ⟨rfl, h.depth_eq, rfl, h.addresses_eq⟩
  | null | boolean | array | number | object => exact h.sim_mismatch rfl _

theorem sim_replyMember (h : At .reply 1 seen d) (m : List Char × Value) :
    Simulates (fun seen' x => At .reply 1 seen' x) (readReplyMember seen m)
      (d.reads (keyToken m.1 :: tokensOf m.2)) := by
  obtain ⟨name, v⟩ := m
  have hstate := h.state_eq
  rw [readReplyMember]
  split
  · next hname =>
    exact sim_member (by simp only [Decoder.member, hstate, if_pos hname])
      ((sim_error (h.to .replyError) v).bind_pure_left fun _ _ h => h)
  split
  · next h₁ hname =>
    exact sim_member (by simp only [Decoder.member, hstate, if_neg h₁, if_pos hname])
      (sim_parameters (h.to .replyParameters) v)
  · next h₁ h₂ =>
    exact sim_member (by simp only [Decoder.member, hstate, if_neg h₁, if_neg h₂])
      ((h.sim_skip v).bind_pure_left fun _ _ h => h.1)

/-- **The decoder reads the schema**: on the tokens of any tree, the decoder
reports what `readReply` reads, token for token, up to the first violation. -/
theorem sim_reply (v : Value) :
    Simulates (fun seen x => At .complete 0 seen x) (readReply v)
      (Decoder.new.reads (tokensOf v)) := by
  have hnew : At .start 0 ⟨false, false⟩ Decoder.new := ⟨rfl, rfl, rfl, rfl⟩
  cases v with
  | object ms =>
    rw [tokensOf, reads_cons, readReply]
    refine .bind (leads_objectStart hnew (by decide) (.inl ⟨rfl, rfl⟩)).sim_accept
      fun _ d₁ h₁ => ?_
    rw [reads_append, tokensOfMembers_eq]
    refine .bind (.foldlM (fun _ _ m h => sim_replyMember h m) ms h₁) fun _ d₂ h₂ => ?_
    exact (sim_step (leads_objectEnd h₂ (.inl ⟨rfl, rfl⟩)).sim_accept).bind_pure_left
      fun _ _ h => h
  | null | boolean | string | number | array => exact hnew.sim_mismatch rfl _

end Kimojio.Resolver
