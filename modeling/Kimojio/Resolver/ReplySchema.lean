import Kimojio.Json.Decode
import Kimojio.Reading
import Kimojio.Resolver.VarlinkReply
import Mathlib.Tactic.MkIffOfInductiveProp

/-!
# Kimojio.Resolver.ReplySchema

What a `ResolveHostname` reply means, as a recursive reading of its JSON tree.

`readReply` walks the tree in text order and says for every token of it what
it is under the schema: nothing to report, an item, or the first violation.
It is written without the states of the decoder: one function for each level
of the schema, each over the members or elements of its container.

`Conforms` is the schema as a predicate: which members have which type and
range. `isSome_readReply` says that the reading gets to the end exactly for
the trees that conform and nest at most `maxDepth` containers.
-/

namespace Kimojio.Resolver

open Json Rfc8259
open Reading (report stop)

/-! ## the reading of a tree -/

/-- What one token means. -/
inductive Effect where
  | quiet
  | item (item : Item)
  | violation (kind : ReplyErrorKind)
  deriving DecidableEq, Repr

/-- A reading of tokens. -/
abbrev Read (α : Type) := Reading Effect α

/-- A token with nothing to report. -/
def accept : Read Unit := report .quiet

def violate (kind : ReplyErrorKind) : Read α := stop (.violation kind)

/-- A scalar that is converted, and reported as `effect` says. -/
def scalar (r : Except ReplyErrorKind α) (effect : α → Effect) : Read α :=
  match r with
  | .ok a => do report (effect a); pure a
  | .error kind => violate kind

/-- The member name `name`, with or without escapes, is `candidate`. -/
def named (name candidate : Str) : Bool :=
  if '\\' ∈ name then EscapeString.eqUnescaped ⟨name⟩ candidate else name = candidate

/-- The violation of a value of another type than the schema declares, inside
`depth` containers: a container is first one container too many. -/
def mismatch (depth : Nat) : Value → ReplyErrorKind
  | .array _ | .object _ => if depth < maxDepth then .unexpectedType else .depthExceeded
  | _ => .unexpectedType

/-- A number, converted by `convert`. -/
def asNumber (convert : Str → Except ReplyErrorKind α) (depth : Nat) :
    Value → Except ReplyErrorKind α
  | .number text => convert text
  | v => .error (mismatch depth v)

/-- An opening token inside `depth` containers. -/
def openAt (depth : Nat) : Read Unit :=
  if depth < maxDepth then accept else violate .depthExceeded

mutual
/-- A value that the schema does not name: only its nesting counts. -/
def skip (depth : Nat) : Value → Read Unit
  | .array vs => do openAt depth; skipElements (depth + 1) vs; accept
  | .object ms => do openAt depth; skipMembers (depth + 1) ms; accept
  | _ => accept

def skipElements (depth : Nat) : List Value → Read Unit
  | [] => pure ()
  | v :: vs => do skip depth v; skipElements depth vs

def skipMembers (depth : Nat) : List (List Char × Value) → Read Unit
  | [] => pure ()
  | (_, v) :: ms => do accept; skip depth v; skipMembers depth ms
end

/-! ### one address entry -/

/-- What an entry has declared so far; a repeated member replaces the value. -/
structure Entry where
  ifindex : Option Int := none
  family : Option Int := none
  address : Option (List UInt8) := none

/-- An octet of an address. -/
def octetValue (text : Str) : Except ReplyErrorKind UInt8 := do
  return UInt8.ofNat (← tryFrom 0 255 (← integer text)).toNat

/-- The next octet of an address, which stands inside five containers. -/
def readOctet (octets : List UInt8) (v : Value) : Read (List UInt8) :=
  match v with
  | .number text =>
    if octets.length < maxAddressBytes then do
      let octet ← scalar (octetValue text) fun _ => .quiet
      pure (octets ++ [octet])
    else violate .addressTooLong
  | v => violate (mismatch 5 v)

/-- The value of `address`. -/
def readAddress : Value → Read (List UInt8)
  | .array vs => do
    accept
    let octets ← vs.foldlM readOctet []
    accept
    pure octets
  | v => violate (mismatch 4 v)

/-- A member of an entry. -/
def readEntryMember (entry : Entry) (m : List Char × Value) : Read Entry := do
  accept
  if named m.1 "ifindex".toList then
    let value ← scalar (asNumber integerI32 4 m.2) fun _ => .quiet
    pure { entry with ifindex := some value }
  else if named m.1 "family".toList then
    let value ← scalar (asNumber integerI32 4 m.2) fun _ => .quiet
    pure { entry with family := some value }
  else if named m.1 "address".toList then
    let octets ← readAddress m.2
    pure { entry with address := some octets }
  else
    skip 4 m.2
    pure entry

/-- The address with these octets, the rest of the buffer being zero. -/
def resolvedAddress (ifindex family : Int) (octets : List UInt8) : ResolvedAddress where
  ifindex := ifindex
  family := family
  octets := Vector.ofFn fun i => octets.getD i 0
  length := octets.length

/-- The end of an entry: it needs a family and an address, and an absent
`ifindex` is zero. -/
def endEntry (entry : Entry) : Read Unit :=
  match entry.family, entry.address with
  | some family, some octets =>
    report (.item (.address (resolvedAddress (entry.ifindex.getD 0) family octets)))
  | _, _ => violate .missingMember

/-- An element of `addresses`. -/
def readEntry : Value → Read Unit
  | .object ms => do
    accept
    let entry ← ms.foldlM readEntryMember {}
    endEntry entry
  | v => violate (mismatch 3 v)

/-! ### the members of the reply -/

/-- Which of the two answers have occurred. -/
structure Seen where
  error : Bool
  addresses : Bool
  deriving DecidableEq

/-- The value of `parameters.addresses`. -/
def readAddresses : Value → Read Unit
  | .array vs => do
    accept
    vs.foldlM (fun _ v => readEntry v) ()
    accept
  | v => violate (mismatch 2 v)

/-- The value of `parameters.name`. -/
def readName : Value → Read Unit
  | .string body => report (.item (if '\\' ∈ body then .escapeName ⟨body⟩ else .name body))
  | v => violate (mismatch 2 v)

/-- The value of `parameters.flags`, a `u64`. -/
def flagsValue (text : Str) : Except ReplyErrorKind Nat := do
  return (← tryFrom 0 (2 ^ 64 - 1) (← integer text)).toNat

/-- A member of `parameters`. -/
def readParametersMember (seen : Seen) (m : List Char × Value) : Read Seen := do
  accept
  if named m.1 "addresses".toList then
    readAddresses m.2
    pure { seen with addresses := true }
  else if named m.1 "name".toList then
    readName m.2
    pure seen
  else if named m.1 "flags".toList then
    let _ ← scalar (asNumber flagsValue 2 m.2) fun flags => .item (.flags flags)
    pure seen
  else
    skip 2 m.2
    pure seen

/-- The value of `parameters`. -/
def readParameters (seen : Seen) : Value → Read Seen
  | .object ms => do
    accept
    let seen ← ms.foldlM readParametersMember seen
    accept
    pure seen
  | v => violate (mismatch 1 v)

/-- The value of `error`, a string without escapes. -/
def readError : Value → Read Unit
  | .string body =>
    if '\\' ∈ body then violate .unexpectedEscape else report (.item (.error body))
  | v => violate (mismatch 1 v)

/-- A member of the reply. -/
def readReplyMember (seen : Seen) (m : List Char × Value) : Read Seen := do
  accept
  if named m.1 "error".toList then
    readError m.2
    pure { seen with error := true }
  else if named m.1 "parameters".toList then readParameters seen m.2
  else
    skip 1 m.2
    pure seen

/-- The whole reply. -/
def readReply : Value → Read Seen
  | .object ms => do
    accept
    let seen ← ms.foldlM readReplyMember ⟨false, false⟩
    accept
    pure seen
  | v => violate (mismatch 0 v)

/-! ## the schema as a predicate -/

/-- The name, with its escapes decoded, is `candidate`. -/
def Named (name : Str) (candidate : String) : Prop := Decodes name candidate.toList

/-- An integer of this range. -/
def IsInt (low high : Int) (v : Value) : Prop :=
  ∃ text n, v = .number text ∧ IsInteger text n ∧ low ≤ n ∧ n ≤ high

/-- `address: []int`, at most `maxAddressBytes` bytes. -/
def IsAddress (v : Value) : Prop :=
  ∃ vs, v = .array vs ∧ vs.length ≤ maxAddressBytes ∧ ∀ o ∈ vs, IsInt 0 255 o

/-- A member of an address entry; other names may have any value. -/
@[mk_iff] structure EntryMember (m : List Char × Value) : Prop where
  ifindex : Named m.1 "ifindex" → IsInt (-2 ^ 31) (2 ^ 31 - 1) m.2
  family : Named m.1 "family" → IsInt (-2 ^ 31) (2 ^ 31 - 1) m.2
  address : Named m.1 "address" → IsAddress m.2

/-- `ResolveHostnameAddress (ifindex: ?int, family: int, address: []int)` -/
def IsEntry (v : Value) : Prop :=
  ∃ ms, v = .object ms ∧ (∀ m ∈ ms, EntryMember m) ∧ (∃ m ∈ ms, Named m.1 "family") ∧
    ∃ m ∈ ms, Named m.1 "address"

/-- `addresses: []ResolveHostnameAddress` -/
def IsAddresses (v : Value) : Prop := ∃ vs, v = .array vs ∧ ∀ e ∈ vs, IsEntry e

/-- A member of `parameters`. -/
@[mk_iff] structure ParametersMember (m : List Char × Value) : Prop where
  addresses : Named m.1 "addresses" → IsAddresses m.2
  name : Named m.1 "name" → ∃ body, m.2 = .string body
  flags : Named m.1 "flags" → IsInt 0 (2 ^ 64 - 1) m.2

def IsParameters (v : Value) : Prop := ∃ ms, v = .object ms ∧ ∀ m ∈ ms, ParametersMember m

/-- A member of the reply. -/
@[mk_iff] structure ReplyMember (m : List Char × Value) : Prop where
  error : Named m.1 "error" → ∃ body, m.2 = .string body ∧ '\\' ∉ body
  parameters : Named m.1 "parameters" → IsParameters m.2

/-- Every member that the schema names has its declared type and range. -/
def Conforms (v : Value) : Prop := ∃ ms, v = .object ms ∧ ∀ m ∈ ms, ReplyMember m

/-- An `error` member, or a `parameters` member with an `addresses` member. -/
def IsAnswer (m : List Char × Value) : Prop :=
  Named m.1 "error" ∨
    Named m.1 "parameters" ∧ ∃ ps, m.2 = .object ps ∧ ∃ p ∈ ps, Named p.1 "addresses"

/-- The reply answers the request. -/
def Answers (v : Value) : Prop := ∃ ms, v = .object ms ∧ ∃ m ∈ ms, IsAnswer m

/-! ### names and numbers of the grammar -/

/-- The names and numbers of the tree are text of the grammar. -/
def Valid (v : Value) : Prop := ∀ tok ∈ tokensOf v, tok.Valid

theorem chars_of_keyToken (h : (keyToken name).Valid) : Chars name := by
  rw [keyToken] at h
  split at h <;> exact h.1

theorem Valid.member (h : Valid (.object ms)) (hm : m ∈ ms) : Chars m.1 ∧ Valid m.2 := by
  have hmem : ∀ tok, tok ∈ keyToken m.1 :: tokensOf m.2 → tok ∈ tokensOf (.object ms) := by
    intro tok htok
    rw [tokensOf, tokensOfMembers_eq]
    simp only [List.mem_cons, List.mem_append, List.mem_flatMap]
    exact .inr (.inl ⟨m, hm, List.mem_cons.mp htok⟩)
  exact ⟨chars_of_keyToken (h _ (hmem _ (.head _))), fun tok htok => h _ (hmem _ (.tail _ htok))⟩

theorem Valid.element (h : Valid (.array vs)) (hv : v ∈ vs) : Valid v := by
  intro tok htok
  refine h tok ?_
  rw [tokensOf, tokensOfElements_eq]
  simp only [List.mem_cons, List.mem_append, List.mem_flatMap]
  exact .inr (.inl ⟨v, hv, htok⟩)

theorem Valid.number (h : Valid (.number text)) : Number text :=
  h (.number text) (by simp [tokensOf])

/-- The decoder compares names by their decoded text. -/
theorem named_iff (h : Chars name) (candidate : String) :
    named name candidate.toList = true ↔ Named name candidate := by
  rw [named, Named]
  split
  · exact (EscapeString.correct_of_chars (b := ⟨name⟩) h).eq_iff _
  · next hb =>
    rw [decide_eq_true_eq]
    constructor
    · rintro rfl
      exact decodes_self h hb
    · exact decodes_unique (decodes_self h hb)

theorem Named.unique (h : Named name a) (h' : Named name b) : a = b :=
  String.toList_inj.mp (decodes_unique h h')

theorem Named.ne (h : Named name a) (b : String) (hab : a ≠ b) : ¬ Named name b :=
  fun h' => hab (h.unique h')

/-! ### integers -/

theorem intPart_digits (h : IntPart s) : s ≠ [] ∧ ∀ c ∈ s, isDigit c = true := by
  obtain rfl | ⟨d, ds, hd, hds, rfl⟩ := h
  · refine ⟨by simp, fun c hc => ?_⟩
    cases List.mem_singleton.mp hc
    decide
  · refine ⟨by simp, ?_⟩
    simp only [List.forall_mem_cons]
    refine ⟨?_, hds⟩
    simp only [isDigit19, isDigit, Bool.and_eq_true, decide_eq_true_eq] at hd ⊢
    exact ⟨Nat.le_trans (by decide : '0'.toNat ≤ '1'.toNat) hd.1, hd.2⟩

/-- Digits are no signs, and no part of a fraction or an exponent. -/
theorem ne_of_isDigit (h : isDigit c = true) (hd : isDigit d = false) : c ≠ d := by
  intro hcd
  rw [← hcd, h] at hd
  cases hd

/-- The characters that `integer` looks for. -/
def isFloat (c : Char) : Bool := c = '.' || c = 'e' || c = 'E'

theorem not_isFloat_of_isDigit (h : isDigit c = true) : isFloat c = false := by
  have hdot := ne_of_isDigit h (show isDigit '.' = false by decide)
  have he := ne_of_isDigit h (show isDigit 'e' = false by decide)
  have hE := ne_of_isDigit h (show isDigit 'E' = false by decide)
  simp [isFloat, hdot, he, hE]

theorem not_any_of_isInteger (h : IsInteger text n) : text.any isFloat = false := by
  rw [List.any_eq_false]
  intro c hc
  cases h with
  | plain hds => simp [not_isFloat_of_isDigit ((intPart_digits hds).2 c hc)]
  | minus hds =>
    rcases List.mem_cons.mp hc with rfl | hc
    · decide
    · simp [not_isFloat_of_isDigit ((intPart_digits hds).2 c hc)]

theorem splitSign_of_isDigit (h : isDigit d = true) (ds : Str) :
    splitSign (d :: ds) = (false, d :: ds) := by
  have hminus := ne_of_isDigit h (show isDigit '-' = false by decide)
  have hplus := ne_of_isDigit h (show isDigit '+' = false by decide)
  unfold splitSign
  split <;> simp_all

theorem parseI128_of_isInteger (h : IsInteger text n) :
    parseI128 text = if -2 ^ 127 ≤ n ∧ n < 2 ^ 127 then some n else none := by
  have hall : ∀ {ds : Str}, IntPart ds → ds ≠ [] ∧ ds.all Char.isDigit = true := by
    intro ds hds
    exact ⟨(intPart_digits hds).1, List.all_eq_true.mpr (intPart_digits hds).2⟩
  cases h with
  | plain hds =>
    have hsign : splitSign text = (false, text) := by
      obtain ⟨hne, hdigits⟩ := intPart_digits hds
      cases text with
      | nil => exact absurd rfl hne
      | cons d ds => exact splitSign_of_isDigit (hdigits d (.head _)) ds
    simp only [parseI128, hsign, if_pos (hall hds), Bool.false_eq_true, if_false]
    rfl
  | minus hds =>
    simp only [parseI128, splitSign, if_pos (hall hds), if_true]
    rfl

/-- A number is an integer, or has a fraction or an exponent. -/
theorem any_or_isInteger (h : Number text) : text.any isFloat = true ∨ ∃ n, IsInteger text n := by
  obtain ⟨sg, i, f, e, hsg, hi, hf, he, rfl⟩ := h
  obtain rfl | ⟨ds, -, rfl⟩ := hf
  · obtain rfl | ⟨c, sg', ds, hc, -, -, rfl⟩ := he
    · obtain rfl | rfl := hsg
      · exact .inr ⟨_, by simpa using IsInteger.plain hi⟩
      · exact .inr ⟨_, by simpa using IsInteger.minus hi⟩
    · refine .inl (List.any_eq_true.mpr ⟨c, by simp, ?_⟩)
      rcases hc with rfl | rfl <;> decide
  · exact .inl (List.any_eq_true.mpr ⟨'.', by simp, by decide⟩)

theorem isInteger_unique (h : IsInteger text n) (h' : IsInteger text n') : n = n' := by
  have hdigit : ∀ {ds : Str}, ¬ IntPart ('-' :: ds) := by
    intro ds hds
    have := (intPart_digits hds).2 '-' (.head _)
    simp [isDigit] at this
  cases h with
  | plain hds =>
    cases h' with
    | plain => rfl
    | minus => exact (hdigit hds).elim
  | minus =>
    cases h' with
    | plain hds => exact (hdigit hds).elim
    | minus => rfl

/-- The integers of the decoder are those of the grammar. -/
theorem integer_ok_iff (h : Number text) (n : Int) :
    integer text = .ok n ↔ IsInteger text n ∧ -2 ^ 127 ≤ n ∧ n < 2 ^ 127 := by
  have hdef : integer text =
      if text.any isFloat = true then .error .unexpectedType
      else (parseI128 text).elim (.error .numberOutOfRange) .ok := by
    show (if text.any isFloat = true then Except.error ReplyErrorKind.unexpectedType else _) = _
    by_cases hany : text.any isFloat = true
    · rw [if_pos hany, if_pos hany]
    · rw [if_neg hany, if_neg hany]
      cases parseI128 text <;> rfl
  obtain hany | ⟨m, hm⟩ := any_or_isInteger h
  · rw [hdef, if_pos hany]
    constructor
    · intro h
      cases h
    · rintro ⟨hn, -⟩
      rw [not_any_of_isInteger hn] at hany
      cases hany
  · rw [hdef, not_any_of_isInteger hm, if_neg (by decide), parseI128_of_isInteger hm]
    by_cases hrange : -2 ^ 127 ≤ m ∧ m < 2 ^ 127
    · rw [if_pos hrange]
      constructor
      · intro h
        cases h
        exact ⟨hm, hrange⟩
      · rintro ⟨hn, -⟩
        rw [isInteger_unique hn hm]
        rfl
    · rw [if_neg hrange]
      constructor
      · intro h
        cases h
      · rintro ⟨hn, hr⟩
        rw [isInteger_unique hn hm] at hr
        exact absurd hr hrange

theorem isInteger_of_tryFrom (h : Number text)
    (hn : (do tryFrom low high (← integer text) : Except ReplyErrorKind Int) = .ok n) :
    IsInteger text n ∧ low ≤ n ∧ n ≤ high := by
  cases hint : integer text with
  | error kind =>
    rw [hint] at hn
    cases hn
  | ok m =>
    rw [hint] at hn
    have htry : tryFrom low high m = .ok n := hn
    rw [tryFrom] at htry
    split at htry
    · next hrange =>
      cases htry
      exact ⟨((integer_ok_iff h _).mp hint).1, hrange⟩
    · cases htry

/-- An integer of a smaller range, as the fields are read. -/
theorem tryFrom_integer_isOk (h : Number text) (hlow : -2 ^ 127 ≤ low) (hhigh : high < 2 ^ 127) :
    (∃ n, (do tryFrom low high (← integer text) : Except ReplyErrorKind Int) = .ok n) ↔
      IsInt low high (.number text) := by
  constructor
  · rintro ⟨n, hn⟩
    exact ⟨text, n, rfl, isInteger_of_tryFrom h hn⟩
  · rintro ⟨text', n, htext, hn, hrange⟩
    cases htext
    have hint := (integer_ok_iff h n).mpr ⟨hn, by omega, by omega⟩
    refine ⟨n, ?_⟩
    rw [hint]
    exact if_pos hrange

/-! ### the reading gets to the end of the trees that conform -/

theorem isSome_scalar : (scalar r effect).result.isSome ↔ ∃ a, r = .ok a := by
  cases r with
  | error kind => simp [scalar, violate, stop]
  | ok a => exact ⟨fun _ => ⟨a, rfl⟩, fun _ => rfl⟩

@[simp] theorem isSome_accept : accept.result.isSome = true := rfl

@[simp] theorem isSome_violate (kind : ReplyErrorKind) :
    (violate kind : Read α).result.isSome = false := rfl

/-- A number of the declared range, read by `convert`. -/
theorem isSome_number {convert : Str → Except ReplyErrorKind α}
    (hconvert : ∀ text, Number text → ((∃ a, convert text = .ok a) ↔ IsInt low high (.number text)))
    (hv : Valid v) (depth : Nat) (effect : α → Effect) :
    (scalar (asNumber convert depth v) effect).result.isSome ↔ IsInt low high v := by
  rw [isSome_scalar]
  cases v with
  | number text => exact hconvert text hv.number
  | null | boolean | string | array | object =>
    constructor
    · rintro ⟨a, ha⟩
      cases ha
    · rintro ⟨text, n, hn, -⟩
      cases hn

theorem isOk_map {f : α → β} :
    (∃ b, (do return f (← r) : Except ε β) = .ok b) ↔ ∃ a, r = .ok a := by
  cases r with
  | error e =>
    constructor <;> rintro ⟨_, h⟩ <;> cases h
  | ok a => exact ⟨fun _ => ⟨a, rfl⟩, fun _ => ⟨f a, rfl⟩⟩

theorem depthElements_le_iff (vs : List Value) (n : Nat) :
    Value.depthElements vs ≤ n ↔ ∀ v ∈ vs, v.depth ≤ n := by
  induction vs with
  | nil => simp [Value.depthElements]
  | cons v vs ih => simp only [Value.depthElements, Nat.max_le, ih, List.forall_mem_cons]

theorem depthMembers_le_iff (ms : List (List Char × Value)) (n : Nat) :
    Value.depthMembers ms ≤ n ↔ ∀ m ∈ ms, m.2.depth ≤ n := by
  induction ms with
  | nil => simp [Value.depthMembers]
  | cons m ms ih => simp only [Value.depthMembers, Nat.max_le, ih, List.forall_mem_cons]

/-- One reading after another gets to the end when both do. -/
theorem isSome_bind {f : α → Read β} (hf : ∀ a, x.result = some a → ((f a).result.isSome ↔ p)) :
    (x >>= f).result.isSome ↔ x.result.isSome ∧ p := by
  rw [Reading.result_bind]
  cases hx : x.result with
  | none => simp
  | some a => simpa using hf a hx

theorem result_accept_bind (f : Unit → Read α) : (accept >>= f).result = (f ()).result := rfl

theorem isSome_accept_bind : (accept >>= f).result.isSome ↔ (f ()).result.isSome := by
  rw [Reading.result_bind]
  rfl

theorem isSome_bind_accept : (x >>= fun _ => accept).result.isSome ↔ x.result.isSome := by
  rw [Reading.result_bind]
  cases x.result <;> simp

theorem isSome_bind_pure {x : Read α} {f : α → β} :
    (x >>= fun a => pure (f a)).result.isSome ↔ x.result.isSome := by
  rw [Reading.result_bind]
  cases x.result <;> simp

theorem isSome_openAt_bind :
    (openAt depth >>= f).result.isSome ↔ depth < maxDepth ∧ (f ()).result.isSome := by
  rw [openAt]
  split
  · next h => rw [isSome_accept_bind]; simp [h]
  · next h => simp [h, violate, stop]

mutual
theorem isSome_skip (v : Value) (hd : depth ≤ maxDepth) :
    (skip depth v).result.isSome ↔ depth + v.depth ≤ maxDepth := by
  match v with
  | .null | .boolean _ | .number _ | .string _ =>
    rw [skip, Value.depth]
    · simpa using hd
    all_goals simp
  | .array vs =>
    rw [skip, Value.depth, isSome_openAt_bind, isSome_bind_accept]
    by_cases hlt : depth < maxDepth
    · rw [isSome_skipElements vs hlt]
      omega
    · simp only [hlt, false_and, false_iff]
      omega
  | .object ms =>
    rw [skip, Value.depth, isSome_openAt_bind, isSome_bind_accept]
    by_cases hlt : depth < maxDepth
    · rw [isSome_skipMembers ms hlt]
      omega
    · simp only [hlt, false_and, false_iff]
      omega

theorem isSome_skipElements (vs : List Value) (hd : depth ≤ maxDepth) :
    (skipElements depth vs).result.isSome ↔ depth + Value.depthElements vs ≤ maxDepth := by
  match vs with
  | [] => simpa [skipElements, Value.depthElements] using hd
  | v :: vs =>
    rw [skipElements, Value.depthElements,
      isSome_bind (fun _ _ => isSome_skipElements vs hd), isSome_skip v hd]
    omega

theorem isSome_skipMembers (ms : List (List Char × Value)) (hd : depth ≤ maxDepth) :
    (skipMembers depth ms).result.isSome ↔ depth + Value.depthMembers ms ≤ maxDepth := by
  match ms with
  | [] => simpa [skipMembers, Value.depthMembers] using hd
  | (_, v) :: ms =>
    rw [skipMembers, Value.depthMembers, isSome_accept_bind,
      isSome_bind (fun _ _ => isSome_skipMembers ms hd), isSome_skip v hd]
    omega
end

/-! ### the levels of the schema -/

/-- The start and the end of a container change nothing. -/
theorem result_container (x : Read α) :
    (accept >>= fun _ => x >>= fun a => accept >>= fun _ => pure a).result = x.result := by
  rw [result_accept_bind, Reading.result_bind]
  cases x.result <;> rfl

theorem IsInt.depth (h : IsInt low high v) : v.depth = 0 := by
  obtain ⟨text, n, rfl, -⟩ := h
  rw [Value.depth] <;> simp

theorem isOk_converted (h : Number text) (hlow : -2 ^ 127 ≤ low) (hhigh : high < 2 ^ 127)
    {f : Int → α} :
    (∃ a, (do return f (← tryFrom low high (← integer text)) : Except ReplyErrorKind α) = .ok a) ↔
      IsInt low high (.number text) := by
  rw [← tryFrom_integer_isOk h hlow hhigh]
  cases integer text with
  | error kind => exact isOk_map (r := Except.error kind) (f := f)
  | ok n => exact isOk_map (r := tryFrom low high n) (f := f)

theorem isOk_flagsValue (h : Number text) :
    (∃ n, flagsValue text = .ok n) ↔ IsInt 0 (2 ^ 64 - 1) (.number text) :=
  isOk_converted h (by decide) (by decide)

theorem isOk_integerI32 (h : Number text) :
    (∃ n, integerI32 text = .ok n) ↔ IsInt (-2 ^ 31) (2 ^ 31 - 1) (.number text) :=
  tryFrom_integer_isOk h (by decide) (by decide)

theorem isSome_readOctet (hv : Valid v) (octets : List UInt8) :
    (readOctet octets v).result.isSome ↔ octets.length < maxAddressBytes ∧ IsInt 0 255 v := by
  cases v with
  | number text =>
    rw [readOctet]
    split
    · next hlt =>
      rw [isSome_bind_pure, isSome_scalar, octetValue,
        isOk_converted hv.number (by decide) (by decide)]
      simp [hlt]
    · next hlt => simp [hlt]
  | null | boolean | string | array | object => simp [readOctet, IsInt]

theorem length_of_readOctet (h : (readOctet octets v).result = some octets') :
    octets'.length = octets.length + 1 := by
  cases v with
  | number text =>
    rw [readOctet] at h
    split at h
    · rw [Reading.result_bind] at h
      obtain ⟨octet, -, hres⟩ := Option.bind_eq_some_iff.mp h
      cases hres
      simp
    · cases h
  | null | boolean | string | array | object => cases h

theorem isSome_octets {vs : List Value} (hv : ∀ v ∈ vs, Valid v)
    (hle : octets.length ≤ maxAddressBytes) :
    (vs.foldlM readOctet octets).result.isSome ↔
      octets.length + vs.length ≤ maxAddressBytes ∧ ∀ v ∈ vs, IsInt 0 255 v := by
  induction vs generalizing octets with
  | nil => simpa using hle
  | cons v vs ih =>
    have hhead := isSome_readOctet (hv v (.head _)) octets
    rw [List.foldlM_cons, List.forall_mem_cons, List.length_cons]
    cases hres : (readOctet octets v).result with
    | none =>
      rw [Reading.bind_eq_of_none hres]
      grind
    | some octets' =>
      have hlen := length_of_readOctet hres
      rw [Reading.bind_eq_of_some hres]
      grind

theorem isSome_readAddress (hv : Valid v) :
    (readAddress v).result.isSome ↔ IsAddress v ∧ 4 + v.depth ≤ maxDepth := by
  cases v with
  | array vs =>
    rw [readAddress, result_container,
      isSome_octets (fun _ h => hv.element h) (by decide), Value.depth]
    have hdepth : (∀ v ∈ vs, IsInt 0 255 v) → Value.depthElements vs ≤ 0 := by
      rw [depthElements_le_iff]
      exact fun h v hv => Nat.le_of_eq (h v hv).depth
    simp only [IsAddress, Value.array.injEq, exists_eq_left', List.length_nil, Nat.zero_add,
      maxDepth]
    constructor
    · exact fun h => ⟨h, by have := hdepth h.2; omega⟩
    · exact fun h => h.1
  | null | boolean | string | number | object => simp [readAddress, IsAddress]

theorem isSome_readEntryMember (hm : Chars m.1 ∧ Valid m.2) (entry : Entry) :
    (readEntryMember entry m).result.isSome ↔ EntryMember m ∧ 4 + m.2.depth ≤ maxDepth := by
  have hnum : IsInt (-2 ^ 31) (2 ^ 31 - 1) m.2 → 4 + m.2.depth ≤ maxDepth := by
    intro hint
    rw [hint.depth]
    decide
  rw [readEntryMember, isSome_accept_bind, entryMember_iff]
  split
  · next h =>
    have hn := (named_iff hm.1 _).mp h
    rw [isSome_bind_pure, isSome_number (fun _ => isOk_integerI32) hm.2]
    simpa [hn, hn.ne "family" (by decide), hn.ne "address" (by decide)] using hnum
  split
  · next h =>
    have hn := (named_iff hm.1 _).mp h
    rw [isSome_bind_pure, isSome_number (fun _ => isOk_integerI32) hm.2]
    simpa [hn, hn.ne "ifindex" (by decide), hn.ne "address" (by decide)] using hnum
  split
  · next h =>
    have hn := (named_iff hm.1 _).mp h
    rw [isSome_bind_pure, isSome_readAddress hm.2]
    simp [hn, hn.ne "ifindex" (by decide), hn.ne "family" (by decide)]
  · next h₁ h₂ h₃ =>
    rw [named_iff hm.1] at h₁ h₂ h₃
    rw [isSome_bind_pure, isSome_skip m.2 (by decide)]
    simp [h₁, h₂, h₃]

/-- The value of a reading that is followed by a computation. -/
theorem result_bind_pure {x : Read α} {f : α → β}
    (h : (x >>= fun a => pure (f a)).result = some b) : ∃ a, x.result = some a ∧ f a = b := by
  rw [Reading.result_bind] at h
  obtain ⟨a, ha, hb⟩ := Option.bind_eq_some_iff.mp h
  exact ⟨a, ha, Option.some.inj hb⟩

theorem result_scalar (r : Except ReplyErrorKind α) (effect : α → Effect) :
    (scalar r effect).result = r.toOption := by
  cases r <;> rfl

/-- A member sets a value, or keeps what was there. -/
def Sets (is : Prop) (value before after : Option α) : Prop :=
  (is → after.isSome ∧ after = value) ∧ (¬ is → after = before)

theorem Sets.isSome_iff {before after : Option α} (h : Sets is value before after) :
    after.isSome ↔ before.isSome ∨ is := by
  by_cases his : is
  · simp [his, (h.1 his).1]
  · simp [his, h.2 his]

/-- What a member of an entry sets, and what it keeps. -/
theorem readEntryMember_sets (hm : Chars m.1) (h : (readEntryMember entry m).result = some entry') :
    Sets (Named m.1 "ifindex") (asNumber integerI32 4 m.2).toOption entry.ifindex entry'.ifindex ∧
      Sets (Named m.1 "family") (asNumber integerI32 4 m.2).toOption entry.family entry'.family ∧
      Sets (Named m.1 "address") (readAddress m.2).result entry.address entry'.address := by
  rw [readEntryMember, result_accept_bind] at h
  split at h
  · next hn =>
    obtain ⟨value, hvalue, rfl⟩ := result_bind_pure h
    rw [result_scalar] at hvalue
    have hn := (named_iff hm _).mp hn
    simp [Sets, hn, hn.ne "family" (by decide), hn.ne "address" (by decide), hvalue]
  split at h
  · next hn =>
    obtain ⟨value, hvalue, rfl⟩ := result_bind_pure h
    rw [result_scalar] at hvalue
    have hn := (named_iff hm _).mp hn
    simp [Sets, hn, hn.ne "ifindex" (by decide), hn.ne "address" (by decide), hvalue]
  split at h
  · next hn =>
    obtain ⟨octets, hoctets, rfl⟩ := result_bind_pure h
    have hn := (named_iff hm _).mp hn
    simp [Sets, hn, hn.ne "ifindex" (by decide), hn.ne "family" (by decide), hoctets]
  · next hi hf ha =>
    obtain ⟨-, -, rfl⟩ := result_bind_pure h
    rw [named_iff hm] at hi hf ha
    simp [Sets, hi, hf, ha]

theorem isSome_endEntry (entry : Entry) :
    (endEntry entry).result.isSome ↔ entry.family.isSome ∧ entry.address.isSome := by
  rw [endEntry]
  split
  · next hf ha => simp [hf, ha, report]
  · next hnot =>
    cases hf : entry.family with
    | none => simp
    | some family =>
      cases ha : entry.address with
      | none => simp
      | some octets => exact (hnot _ _ hf ha).elim

theorem depth_object_le : n + (Value.object ms).depth ≤ maxDepth ↔
      n < maxDepth ∧ ∀ m ∈ ms, n + 1 + m.2.depth ≤ maxDepth := by
  have hle := depthMembers_le_iff ms (maxDepth - (n + 1))
  rw [Value.depth]
  constructor
  · intro hdepth
    refine ⟨by omega, fun m hm => ?_⟩
    have := hle.mp (by omega) m hm
    omega
  · rintro ⟨hn, h⟩
    have := hle.mpr fun m hm => by have := h m hm; omega
    omega

theorem depth_array_le : n + (Value.array vs).depth ≤ maxDepth ↔
      n < maxDepth ∧ ∀ v ∈ vs, n + 1 + v.depth ≤ maxDepth := by
  have hle := depthElements_le_iff vs (maxDepth - (n + 1))
  rw [Value.depth]
  constructor
  · intro hdepth
    refine ⟨by omega, fun v hv => ?_⟩
    have := hle.mp (by omega) v hv
    omega
  · rintro ⟨hn, h⟩
    have := hle.mpr fun v hv => by have := h v hv; omega
    omega

/-- The members of an object, and how deep they nest. -/
theorem forall_members_iff {p : List Char × Value → Prop} (hd : depth < maxDepth) :
    (∀ m ∈ ms, p m ∧ depth + 1 + m.2.depth ≤ maxDepth) ↔
      (∀ m ∈ ms, p m) ∧ depth + (Value.object ms).depth ≤ maxDepth := by
  rw [depth_object_le]
  grind

/-- The elements of an array, and how deep they nest. -/
theorem forall_elements_iff {p : Value → Prop} (hd : depth < maxDepth) :
    (∀ v ∈ vs, p v ∧ depth + 1 + v.depth ≤ maxDepth) ↔
      (∀ v ∈ vs, p v) ∧ depth + (Value.array vs).depth ≤ maxDepth := by
  rw [depth_array_le]
  grind

theorem isSome_readEntry (hv : Valid v) :
    (readEntry v).result.isSome ↔ IsEntry v ∧ 3 + v.depth ≤ maxDepth := by
  cases v with
  | object ms =>
    have hend : ∀ entry, (ms.foldlM readEntryMember {}).result = some entry →
        ((endEntry entry).result.isSome ↔
          (∃ m ∈ ms, Named m.1 "family") ∧ ∃ m ∈ ms, Named m.1 "address") := by
      intro entry hentry
      have hfam := Reading.foldlM_records (p := fun e : Entry => e.family.isSome)
        (fun m hm _ _ h => (readEntryMember_sets (hv.member hm).1 h).2.1.isSome_iff) hentry
      have haddr := Reading.foldlM_records (p := fun e : Entry => e.address.isSome)
        (fun m hm _ _ h => (readEntryMember_sets (hv.member hm).1 h).2.2.isSome_iff) hentry
      rw [isSome_endEntry, hfam, haddr]
      simp
    rw [readEntry, isSome_accept_bind, isSome_bind hend,
      Reading.isSome_foldlM fun m hm => isSome_readEntryMember (hv.member hm),
      forall_members_iff (by decide)]
    simp only [IsEntry, Value.object.injEq, exists_eq_left']
    grind
  | null | boolean | string | number | array => simp [readEntry, IsEntry]

theorem isSome_readAddresses (hv : Valid v) :
    (readAddresses v).result.isSome ↔ IsAddresses v ∧ 2 + v.depth ≤ maxDepth := by
  cases v with
  | array vs =>
    have hentry : ∀ e ∈ vs, ∀ _ : Unit, (readEntry e).result.isSome ↔ _ :=
      fun e he _ => isSome_readEntry (hv.element he)
    rw [readAddresses, isSome_accept_bind, isSome_bind_accept, Reading.isSome_foldlM hentry,
      forall_elements_iff (by decide)]
    simp only [IsAddresses, Value.array.injEq, exists_eq_left']
  | null | boolean | string | number | object => simp [readAddresses, IsAddresses]

theorem isSome_readName (v : Value) : (readName v).result.isSome ↔ ∃ body, v = .string body := by
  cases v <;> simp [readName, report]

theorem isSome_readError (v : Value) :
    (readError v).result.isSome ↔ ∃ body, v = .string body ∧ '\\' ∉ body := by
  cases v with
  | string body =>
    rw [readError]
    split
    · next h => simp [h]
    · next h => simp [h, report]
  | null | boolean | number | array | object => simp [readError]

theorem depth_string (body : List Char) : (Value.string body).depth = 0 := by
  rw [Value.depth] <;> simp

theorem isSome_readParametersMember (hm : Chars m.1 ∧ Valid m.2) (seen : Seen) :
    (readParametersMember seen m).result.isSome ↔ ParametersMember m ∧
      2 + m.2.depth ≤ maxDepth := by
  rw [readParametersMember, isSome_accept_bind, parametersMember_iff]
  split
  · next h =>
    have hn := (named_iff hm.1 _).mp h
    rw [isSome_bind_pure, isSome_readAddresses hm.2]
    simp [hn, hn.ne "name" (by decide), hn.ne "flags" (by decide)]
  split
  · next h =>
    have hn := (named_iff hm.1 _).mp h
    have hdepth : ∀ body, m.2 = .string body → 2 + m.2.depth ≤ maxDepth := by
      intro body hbody
      rw [hbody, depth_string]
      decide
    rw [isSome_bind_pure, isSome_readName]
    simpa [hn, hn.ne "addresses" (by decide), hn.ne "flags" (by decide)] using hdepth
  split
  · next h =>
    have hn := (named_iff hm.1 _).mp h
    have hdepth : IsInt 0 (2 ^ 64 - 1) m.2 → 2 + m.2.depth ≤ maxDepth := by
      intro hint
      rw [hint.depth]
      decide
    rw [isSome_bind_pure, isSome_number (fun _ => isOk_flagsValue) hm.2]
    simpa [hn, hn.ne "addresses" (by decide), hn.ne "name" (by decide)] using hdepth
  · next h₁ h₂ h₃ =>
    rw [named_iff hm.1] at h₁ h₂ h₃
    rw [isSome_bind_pure, isSome_skip m.2 (by decide)]
    simp [h₁, h₂, h₃]

/-- What has been seen, after one more member of `parameters`. -/
theorem readParametersMember_records (hm : Chars m.1)
    (h : (readParametersMember seen m).result = some seen') :
    (seen'.addresses = true ↔ seen.addresses = true ∨ Named m.1 "addresses") ∧
      (seen'.error = true ↔ seen.error = true ∨ False) := by
  rw [readParametersMember, result_accept_bind] at h
  split at h
  · next hn =>
    obtain ⟨-, -, rfl⟩ := result_bind_pure h
    simp [(named_iff hm _).mp hn]
  next hn =>
    rw [named_iff hm] at hn
    split at h
    · obtain ⟨-, -, rfl⟩ := result_bind_pure h
      simp [hn]
    split at h
    · obtain ⟨-, -, rfl⟩ := result_bind_pure h
      simp [hn]
    · obtain ⟨-, -, rfl⟩ := result_bind_pure h
      simp [hn]

theorem isSome_readParameters (hv : Valid v) (seen : Seen) :
    (readParameters seen v).result.isSome ↔ IsParameters v ∧ 1 + v.depth ≤ maxDepth := by
  cases v with
  | object ms =>
    rw [readParameters, result_container,
      Reading.isSome_foldlM fun m hm => isSome_readParametersMember (hv.member hm),
      forall_members_iff (by decide)]
    simp only [IsParameters, Value.object.injEq, exists_eq_left']
  | null | boolean | string | number | array => simp [readParameters, IsParameters]

theorem readParameters_records (hv : Valid v) (h : (readParameters seen v).result = some seen') :
    (seen'.addresses = true ↔ seen.addresses = true ∨
        ∃ ps, v = .object ps ∧ ∃ p ∈ ps, Named p.1 "addresses") ∧
      (seen'.error = true ↔ seen.error = true) := by
  cases v with
  | object ms =>
    rw [readParameters, result_container] at h
    have haddr := Reading.foldlM_records (p := fun s : Seen => s.addresses = true)
      (fun m hm _ _ h => (readParametersMember_records (hv.member hm).1 h).1) h
    have herr := Reading.foldlM_records (p := fun s : Seen => s.error = true)
      (fun m hm _ _ h => (readParametersMember_records (hv.member hm).1 h).2) h
    rw [haddr, herr]
    simp
  | null | boolean | string | number | array => cases h

theorem isSome_readReplyMember (hm : Chars m.1 ∧ Valid m.2) (seen : Seen) :
    (readReplyMember seen m).result.isSome ↔ ReplyMember m ∧ 1 + m.2.depth ≤ maxDepth := by
  rw [readReplyMember, isSome_accept_bind, replyMember_iff]
  split
  · next h =>
    have hn := (named_iff hm.1 _).mp h
    have hdepth : ∀ body, m.2 = .string body → '\\' ∉ body → 1 + m.2.depth ≤ maxDepth := by
      intro body hbody _
      rw [hbody, depth_string]
      decide
    rw [isSome_bind_pure, isSome_readError]
    simpa [hn, hn.ne "parameters" (by decide)] using hdepth
  split
  · next h =>
    have hn := (named_iff hm.1 _).mp h
    rw [isSome_readParameters hm.2]
    simp [hn, hn.ne "error" (by decide)]
  · next h₁ h₂ =>
    rw [named_iff hm.1] at h₁ h₂
    rw [isSome_bind_pure, isSome_skip m.2 (by decide)]
    simp [h₁, h₂]

/-- One of the two answers has occurred. -/
def Seen.answered (seen : Seen) : Bool := seen.error || seen.addresses

theorem readReplyMember_records (hm : Chars m.1 ∧ Valid m.2)
    (h : (readReplyMember seen m).result = some seen') :
    seen'.answered = true ↔ seen.answered = true ∨ IsAnswer m := by
  simp only [Seen.answered, IsAnswer, Bool.or_eq_true]
  rw [readReplyMember, result_accept_bind] at h
  split at h
  · next hn =>
    obtain ⟨-, -, rfl⟩ := result_bind_pure h
    simp [(named_iff hm.1 _).mp hn]
  next he =>
    rw [named_iff hm.1] at he
    split at h
    · next hn =>
      obtain ⟨haddr, herr⟩ := readParameters_records hm.2 h
      simp only [haddr, herr, he, (named_iff hm.1 _).mp hn, true_and, false_or, or_assoc]
    · next hp =>
      rw [named_iff hm.1] at hp
      obtain ⟨-, -, rfl⟩ := result_bind_pure h
      simp [he, hp]

/-- **The reading accepts the schema**: a tree is read to its end exactly when
it conforms and nests at most `maxDepth` containers. -/
theorem isSome_readReply (hv : Valid v) :
    (readReply v).result.isSome ↔ Conforms v ∧ v.depth ≤ maxDepth := by
  cases v with
  | object ms =>
    have hdepth : (∀ m ∈ ms, _) ↔ _ :=
      forall_members_iff (p := ReplyMember) (show 0 < maxDepth by decide)
    simp only [Nat.zero_add] at hdepth
    rw [readReply, result_container,
      Reading.isSome_foldlM fun m hm => isSome_readReplyMember (hv.member hm), hdepth]
    simp only [Conforms, Value.object.injEq, exists_eq_left']
  | null | boolean | string | number | array => simp [readReply, Conforms]

theorem readReply_records (hv : Valid v) (h : (readReply v).result = some seen) :
    seen.answered = true ↔ Answers v := by
  cases v with
  | object ms =>
    rw [readReply, result_container] at h
    have hrec := Reading.foldlM_records (p := fun s : Seen => s.answered = true)
      (fun m hm _ _ h => readReplyMember_records (hv.member hm) h) h
    rw [hrec]
    simp [Seen.answered, Answers]
  | null | boolean | string | number | array => cases h

end Kimojio.Resolver
