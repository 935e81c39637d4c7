import Kimojio.Json.Tokenizer
import Mathlib.Algebra.Group.Int.Defs
import Mathlib.Algebra.Group.Nat.Defs

/-!
# Kimojio.Resolver.VarlinkReply

Model of `kimojio/src/resolver/varlink_reply.rs`: the decoder for
`io.systemd.Resolve.ResolveHostname` replies.

The tokenizer drives `bridge`, which drives the decoder and passes the items
it completes to the visitor of the caller. The containers of a skipped value
are counted in natural numbers: the tokenizer bounds them, so the saturating
arithmetic of the source never saturates.
-/

namespace Kimojio.Resolver

open Json (EscapeString Visitor Tokenizer)

/-- The deepest nesting that the decoder reads. -/
def maxDepth : Nat := 5

/-- The largest number of address bytes of any address family. -/
def maxAddressBytes : Nat := 16

/-- One address of a reply, stored inline. -/
structure ResolvedAddress where
  ifindex : Int
  family : Int
  octets : Vector UInt8 maxAddressBytes
  length : Nat
  deriving DecidableEq, Repr

/-- The items of a reply: the calls of `ReplyVisitor`. -/
inductive Item where
  | address (address : ResolvedAddress)
  | error (name : Str)
  | name (name : Str)
  | escapeName (name : EscapeString)
  | flags (flags : Nat)
  deriving DecidableEq, Repr

/-- The `ReplyVisitor` trait over a visitor state `σ`. Only `escape_name` has
no default body. -/
structure ReplyVisitor (σ Out : Type) where
  escapeName : EscapeString → σ → Option Out × σ
  address : ResolvedAddress → σ → Option Out × σ := fun _ s => (none, s)
  error : Str → σ → Option Out × σ := fun _ s => (none, s)
  name : Str → σ → Option Out × σ := fun _ s => (none, s)
  flags : Nat → σ → Option Out × σ := fun _ s => (none, s)

/-- Makes one visitor call. -/
def ReplyVisitor.call (v : ReplyVisitor σ Out) : Item → σ → Option Out × σ
  | .address address => v.address address
  | .error name => v.error name
  | .name name => v.name name
  | .escapeName name => v.escapeName name
  | .flags flags => v.flags flags

/-- A visitor written as one function of the item. -/
def ReplyVisitor.ofCall (f : Item → σ → Option Out × σ) : ReplyVisitor σ Out where
  escapeName name := f (.escapeName name)
  address address := f (.address address)
  error name := f (.error name)
  name name := f (.name name)
  flags flags := f (.flags flags)

@[simp] theorem ReplyVisitor.call_ofCall (f : Item → σ → Option Out × σ) (item : Item) :
    (ReplyVisitor.ofCall f).call item = f item := by
  cases item <;> rfl

/-- The reason why the decoder rejected a reply. -/
inductive ReplyErrorKind where
  | json
  | unexpectedType
  | numberOutOfRange
  | addressTooLong
  | missingMember
  | depthExceeded
  | unexpectedEscape
  deriving DecidableEq, Repr

/-- A short, stable description. -/
def ReplyErrorKind.asStr : ReplyErrorKind → String
  | .json => "the reply was not well-formed JSON"
  | .unexpectedType => "a reply member had the wrong JSON type"
  | .numberOutOfRange => "a reply integer was out of range"
  | .addressTooLong => "an address held more than 16 bytes"
  | .missingMember => "the reply was missing a required member"
  | .depthExceeded => "the reply nested too deeply"
  | .unexpectedEscape => "a reply string contained an escape sequence"

/-- A rejected reply, with the byte offset of the rejection. -/
structure ReplyError where
  kind : ReplyErrorKind
  offset : Nat
  deriving DecidableEq, Repr

/-- `fmt::Display` -/
def ReplyError.display (e : ReplyError) : String :=
  e.kind.asStr ++ " at byte " ++ toString e.offset

/-- A failure of the tokenizer, with the offset that it reported. -/
def ReplyError.fromJson (e : Json.Error) : ReplyError := ⟨.json, e.offset⟩

/-! ## numbers -/

/-- The value of decimal digits. -/
def decimal (digits : Str) : Nat :=
  digits.foldl (fun value digit => 10 * value + (digit.toNat - '0'.toNat)) 0

/-- Whether a number is negative, and what follows its sign. -/
def splitSign : Str → Bool × Str
  | '-' :: digits => (true, digits)
  | '+' :: digits => (false, digits)
  | digits => (false, digits)

/-- `str::parse::<i128>`: an optional sign, then digits, in the range of the type. -/
def parseI128 (text : Str) : Option Int :=
  let (negative, digits) := splitSign text
  if digits ≠ [] ∧ digits.all Char.isDigit then
    let value : Int := if negative then -decimal digits else decimal digits
    if -2 ^ 127 ≤ value ∧ value < 2 ^ 127 then some value else none
  else none

/-- Reads a JSON number for which the schema declares an integer. -/
def integer (text : Str) : Except ReplyErrorKind Int :=
  if text.any (fun c => c = '.' || c = 'e' || c = 'E') then .error .unexpectedType
  else
    match parseI128 text with
    | some value => .ok value
    | none => .error .numberOutOfRange

/-- `TryFrom<i128>` for an integer type with this range. -/
def tryFrom (low high : Int) (value : Int) : Except ReplyErrorKind Int :=
  if low ≤ value ∧ value ≤ high then .ok value else .error .numberOutOfRange

/-- Reads a JSON number that must fit into an `i32`. -/
def integerI32 (text : Str) : Except ReplyErrorKind Int := do
  tryFrom (-2 ^ 31) (2 ^ 31 - 1) (← integer text)

/-! ## the state machine -/

/-- The position of the decoder in the reply. -/
inductive State where
  | start
  | reply
  | replyError
  | replyParameters
  | parameters
  | parametersAddresses
  | parametersName
  | parametersFlags
  | addresses
  | address
  | addressIfindex
  | addressFamily
  | addressOctetsStart
  | addressOctets
  | skip
  | complete
  deriving DecidableEq, Repr

/-- The members of one address entry, collected as they arrive. -/
structure PendingAddress where
  ifindex : Option Int
  family : Option Int
  octets : Vector UInt8 maxAddressBytes
  length : Nat
  hasOctets : Bool
  deriving DecidableEq, Repr

/-- An entry with no decoded member. -/
def PendingAddress.empty : PendingAddress where
  ifindex := none
  family := none
  octets := Vector.replicate _ 0
  length := 0
  hasOctets := false

/-- The reply state machine. -/
structure Decoder where
  state : State
  /-- How many containers of a discarded value are open. -/
  skipDepth : Nat
  /-- The state to return to after a discarded value. -/
  skipResume : State
  depth : Nat
  address : PendingAddress
  seenError : Bool
  seenAddresses : Bool
  deriving DecidableEq, Repr

namespace Decoder

/-- A decoder that has read nothing. -/
def new : Decoder where
  state := .start
  skipDepth := 0
  skipResume := .reply
  depth := 0
  address := .empty
  seenError := false
  seenAddresses := false

/-- Counts an opened container and applies `maxDepth`. -/
def openContainer (d : Decoder) : Option ReplyErrorKind × Decoder :=
  let d := { d with depth := d.depth + 1 }
  (if d.depth > maxDepth then some .depthExceeded else none, d)

/-- Counts a closed container. -/
def close (d : Decoder) : Decoder := { d with depth := d.depth - 1 }

/-- Starts to discard the value that follows an unrecognized member name. -/
def beginSkip (d : Decoder) (resume : State) : Decoder :=
  { d with skipResume := resume, skipDepth := 0, state := .skip }

/-- Leaves the skip state after the discarded value is complete. -/
def endSkippedValue (d : Decoder) : Decoder :=
  if d.skipDepth = 0 then { d with state := d.skipResume } else d

/-- Closes one container of a discarded value. -/
def closeSkipped (d : Decoder) : Decoder :=
  { d with skipDepth := d.skipDepth - 1 }.endSkippedValue

/-- Accepts a scalar that no member of the schema claims. -/
def discardScalar (d : Decoder) : Option ReplyErrorKind × Decoder :=
  if d.state = .skip then (none, d.endSkippedValue) else (some .unexpectedType, d)

/-- Processes an opening brace. -/
def objectStart (d : Decoder) : Option ReplyErrorKind × Decoder :=
  match d.openContainer with
  | (some kind, d) => (some kind, d)
  | (none, d) =>
    match d.state with
    | .start => (none, { d with state := .reply })
    | .replyParameters => (none, { d with state := .parameters })
    | .addresses => (none, { d with address := .empty, state := .address })
    | .skip => (none, { d with skipDepth := d.skipDepth + 1 })
    | _ => (some .unexpectedType, d)

/-- Processes an opening bracket. -/
def arrayStart (d : Decoder) : Option ReplyErrorKind × Decoder :=
  match d.openContainer with
  | (some kind, d) => (some kind, d)
  | (none, d) =>
    match d.state with
    | .parametersAddresses => (none, { d with seenAddresses := true, state := .addresses })
    | .addressOctetsStart =>
      (none, { d with
        address := { d.address with
          octets := Vector.replicate _ 0, length := 0, hasOctets := true }
        state := .addressOctets })
    | .skip => (none, { d with skipDepth := d.skipDepth + 1 })
    | _ => (some .unexpectedType, d)

/-- Processes a closing bracket. -/
def arrayEnd (d : Decoder) : Option ReplyErrorKind × Decoder :=
  let d := d.close
  match d.state with
  | .addresses => (none, { d with state := .parameters })
  | .addressOctets => (none, { d with state := .address })
  | .skip => (none, d.closeSkipped)
  | _ => (some .unexpectedType, d)

/-- Records one byte of the `address` array. The octet count is a `u8`. -/
def pushOctet (d : Decoder) (text : Str) : Except ReplyErrorKind Decoder := do
  if d.address.length ≥ maxAddressBytes then throw .addressTooLong
  let octet ← tryFrom 0 255 (← integer text)
  return { d with address := { d.address with
    octets := d.address.octets.setIfInBounds d.address.length (UInt8.ofNat octet.toNat)
    length := min 255 (d.address.length + 1) } }

/-- Processes a number that belongs to the state machine. -/
def number (d : Decoder) (text : Str) : Option ReplyErrorKind × Decoder :=
  match d.state with
  | .addressIfindex =>
    match integerI32 text with
    | .ok value =>
      (none, { d with address := { d.address with ifindex := some value }, state := .address })
    | .error kind => (some kind, d)
  | .addressFamily =>
    match integerI32 text with
    | .ok value =>
      (none, { d with address := { d.address with family := some value }, state := .address })
    | .error kind => (some kind, d)
  | .addressOctets =>
    match d.pushOctet text with
    | .ok d => (none, d)
    | .error kind => (some kind, d)
  | .skip => (none, d.endSkippedValue)
  | _ => (some .unexpectedType, d)

/-- Processes an object member name. `is` compares the name with a candidate. -/
def member (d : Decoder) (is : Str → Bool) : Option ReplyErrorKind × Decoder :=
  match d.state with
  | .reply =>
    if is "error".toList then (none, { d with state := .replyError })
    else if is "parameters".toList then (none, { d with state := .replyParameters })
    else (none, d.beginSkip .reply)
  | .parameters =>
    if is "addresses".toList then (none, { d with state := .parametersAddresses })
    else if is "name".toList then (none, { d with state := .parametersName })
    else if is "flags".toList then (none, { d with state := .parametersFlags })
    else (none, d.beginSkip .parameters)
  | .address =>
    if is "ifindex".toList then (none, { d with state := .addressIfindex })
    else if is "family".toList then (none, { d with state := .addressFamily })
    else if is "address".toList then (none, { d with state := .addressOctetsStart })
    else (none, d.beginSkip .address)
  | .skip => (none, d)
  | _ => (some .unexpectedType, d)

/-- Completes the address entry whose object closed. -/
def takeAddress (d : Decoder) : Except ReplyErrorKind ResolvedAddress :=
  match d.address.family, d.address.hasOctets with
  | some family, true =>
    .ok ⟨d.address.ifindex.getD 0, family, d.address.octets, d.address.length⟩
  | _, _ => .error .missingMember

end Decoder

/-! ## the bridge between the tokenizer and the caller -/

/-- A rejection by the decoder, on the channel of the caller. -/
def reject (r : Option ReplyErrorKind × Decoder) (s : σ) :
    Option (Except ReplyErrorKind Out) × (Decoder × σ) :=
  (r.1.map .error, r.2, s)

/-- The answer of the caller's visitor, on the same channel. -/
def forward (d : Decoder) (r : Option Out × σ) :
    Option (Except ReplyErrorKind Out) × (Decoder × σ) :=
  (r.1.map .ok, d, r.2)

/-- `Bridge`: connects the reply state machine to the visitor of the caller. -/
def bridge (v : ReplyVisitor σ Out) : Visitor (Decoder × σ) (Except ReplyErrorKind Out) where
  objectStart := fun (d, s) => reject d.objectStart s
  objectEnd := fun (d, s) =>
    let d := d.close
    match d.state with
    | .reply => (none, { d with state := .complete }, s)
    | .parameters => (none, { d with state := .reply }, s)
    | .address =>
      let d := { d with state := .addresses }
      match d.takeAddress with
      | .ok address => forward d (v.address address s)
      | .error kind => (some (.error kind), d, s)
    | .skip => (none, d.closeSkipped, s)
    | _ => (some (.error .unexpectedType), d, s)
  arrayStart := fun (d, s) => reject d.arrayStart s
  arrayEnd := fun (d, s) => reject d.arrayEnd s
  key := fun name (d, s) => reject (d.member fun candidate => name = candidate) s
  escapeKey := fun name (d, s) => reject (d.member fun candidate => name.eqUnescaped candidate) s
  string := fun value (d, s) =>
    match d.state with
    | .replyError => forward { d with seenError := true, state := .reply } (v.error value s)
    | .parametersName => forward { d with state := .parameters } (v.name value s)
    | .skip => (none, d.endSkippedValue, s)
    | _ => (some (.error .unexpectedType), d, s)
  escapeString := fun value (d, s) =>
    match d.state with
    | .replyError => (some (.error .unexpectedEscape), d, s)
    | .parametersName => forward { d with state := .parameters } (v.escapeName value s)
    | .skip => (none, d.endSkippedValue, s)
    | _ => (some (.error .unexpectedType), d, s)
  number := fun text (d, s) =>
    if d.state ≠ .parametersFlags then reject (d.number text) s
    else
      let d := { d with state := .parameters }
      match (do tryFrom 0 (2 ^ 64 - 1) (← integer text) : Except ReplyErrorKind Int) with
      | .ok flags => forward d (v.flags flags.toNat s)
      | .error kind => (some (.error kind), d, s)
  boolean := fun _ (d, s) => reject d.discardScalar s
  null := fun (d, s) => reject d.discardScalar s

/-- A borrowing decoder for a `ResolveHostname` reply. -/
structure ResolveHostnameReply where
  tokenizer : Tokenizer
  decoder : Decoder
  finished : Bool

namespace ResolveHostnameReply

/-- Starts a decode of `json`. -/
def new (json : Str) : ResolveHostnameReply := ⟨.new json, .new, false⟩

/-- Reads the reply and reports each item to the visitor. -/
def drive (v : ReplyVisitor σ Out) (r : ResolveHostnameReply) (s : σ) :
    Except ReplyError (Option Out) × ResolveHostnameReply × σ :=
  if r.finished then (.ok none, r, s)
  else
    match r.tokenizer.drive (bridge v) (r.decoder, s) with
    | (.ok (some (.ok output)), tokenizer, decoder, s) =>
      (.ok (some output), ⟨tokenizer, decoder, false⟩, s)
    | (.ok (some (.error kind)), tokenizer, decoder, s) =>
      (.error ⟨kind, tokenizer.offset⟩, ⟨tokenizer, decoder, true⟩, s)
    | (.ok none, tokenizer, decoder, s) =>
      if decoder.seenError || decoder.seenAddresses then
        (.ok none, ⟨tokenizer, decoder, true⟩, s)
      else (.error ⟨.missingMember, tokenizer.offset⟩, ⟨tokenizer, decoder, true⟩, s)
    | (.error error, tokenizer, decoder, s) =>
      (.error (.fromJson error), ⟨tokenizer, decoder, true⟩, s)

end ResolveHostnameReply

end Kimojio.Resolver
