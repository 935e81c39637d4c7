import Kimojio.Text

/-!
# Kimojio.Json.EscapeString

Model of `kimojio-json/src/error.rs` and `kimojio-json/src/escape_string.rs`:
the errors of the tokenizer, and the borrowed string body that still contains
its escape sequences, with the iterator that decodes it.

Offsets are natural numbers. A Rust slice holds at most `isize::MAX` bytes,
so the saturating and checked additions of the source never leave the range
of `usize` and are plain additions here.
-/

namespace Kimojio.Json

/-! ## error.rs -/

/-- The reason a JSON input was rejected. -/
inductive ErrorKind where
  | unexpectedEof
  | unexpectedByte
  | trailingData
  | invalidNumber
  | unterminatedString
  | controlCharacter
  | invalidEscape
  | expectedKey
  | expectedColon
  | depthExceeded
  | loneSurrogate
  | bufferTooSmall
  deriving DecidableEq, Repr

/-- An error, with the byte offset of the rejected input. -/
structure Error where
  kind : ErrorKind
  offset : Nat
  deriving DecidableEq, Repr

/-! ## escape_string.rs -/

/-- The body of a JSON string that contains at least one escape sequence, in
its source form. -/
structure EscapeString where
  raw : Str
  deriving DecidableEq, Repr

/-- The iterator over the decoded characters: what is left of the body, and
its byte offset in the body. -/
structure Unescape where
  rest : Str
  offset : Nat
  deriving DecidableEq, Repr

namespace Unescape

/-- Consumes `count` bytes of the remaining body. -/
def advance (u : Unescape) (count : Nat) : Unescape where
  rest := (u.rest.getFrom? count).getD []
  offset := u.offset + count

/-- The value of one hexadecimal digit. -/
def nibble (digit : UInt8) : Option Nat :=
  if ascii '0' ≤ digit ∧ digit ≤ ascii '9' then some (digit - ascii '0').toNat
  else if ascii 'a' ≤ digit ∧ digit ≤ ascii 'f' then some ((digit - ascii 'a').toNat + 10)
  else if ascii 'A' ≤ digit ∧ digit ≤ ascii 'F' then some ((digit - ascii 'A').toNat + 10)
  else none

/-- The loop of `hex4` over the digits, from the value read so far. -/
def hexValue : List UInt8 → Nat → Option Nat
  | [], value => some value
  | digit :: digits, value =>
    match nibble digit with
    | some n => hexValue digits (value <<< 4 ||| n)
    | none => none

/-- Reads the four hexadecimal digits that start `pos` bytes into the body. -/
def hex4 (u : Unescape) (pos : Nat) : Except Error Nat :=
  match Str.slice? u.rest.bytes pos (pos + 4) with
  | none => .error ⟨.invalidEscape, u.offset⟩
  | some digits =>
    match hexValue digits 0 with
    | some value => .ok value
    | none => .error ⟨.invalidEscape, u.offset⟩

/-- `char::from_u32` -/
def charFromU32 (n : Nat) : Option Char := if n.isValidChar then some (Char.ofNat n) else none

/-- Decodes the `\u` escape sequence at the start of the body, joining the
halves of a surrogate pair. -/
def decodeUnicodeEscape (u : Unescape) : Except Error Char × Unescape :=
  match u.hex4 2 with
  | .error e => (.error e, u)
  | .ok leading =>
    if 0xD800 ≤ leading ∧ leading < 0xDC00 then
      if Str.slice? u.rest.bytes 6 8 ≠ some [ascii '\\', ascii 'u'] then
        (.error ⟨.loneSurrogate, u.offset⟩, u)
      else
        match u.hex4 8 with
        | .error e => (.error e, u)
        | .ok trailing =>
          if ¬ (0xDC00 ≤ trailing ∧ trailing < 0xE000) then
            (.error ⟨.loneSurrogate, u.offset⟩, u)
          else
            match charFromU32 (0x10000 + ((leading - 0xD800) <<< 10) + (trailing - 0xDC00)) with
            | some character => (.ok character, u.advance 12)
            | none => (.error ⟨.loneSurrogate, u.offset⟩, u)
    else if 0xDC00 ≤ leading ∧ leading < 0xE000 then (.error ⟨.loneSurrogate, u.offset⟩, u)
    else
      match charFromU32 leading with
      | some character => (.ok character, u.advance 6)
      | none => (.error ⟨.loneSurrogate, u.offset⟩, u)

/-- The character of a two-byte escape sequence. -/
def simpleEscape (escape : UInt8) : Option Char :=
  if escape = ascii '"' then some '"'
  else if escape = ascii '\\' then some '\\'
  else if escape = ascii '/' then some '/'
  else if escape = ascii 'b' then some '\x08'
  else if escape = ascii 'f' then some '\x0c'
  else if escape = ascii 'n' then some '\n'
  else if escape = ascii 'r' then some '\r'
  else if escape = ascii 't' then some '\t'
  else none

/-- Decodes the next character, and does not stop after an error. -/
def step (u : Unescape) : Option (Except Error Char) × Unescape :=
  match u.rest with
  | [] => (none, u)
  | character :: _ =>
    if character ≠ '\\' then (some (.ok character), u.advance character.utf8Size)
    else
      match u.rest.bytes[1]? with
      | none => (some (.error ⟨.invalidEscape, u.offset⟩), u)
      | some escape =>
        if escape = ascii 'u' then
          (some u.decodeUnicodeEscape.1, u.decodeUnicodeEscape.2)
        else
          match simpleEscape escape with
          | some simple => (some (.ok simple), u.advance 2)
          | none => (some (.error ⟨.invalidEscape, u.offset⟩), u)

/-- `Iterator::next`: one decoded character, and no more after an error. -/
def next (u : Unescape) : Option (Except Error Char) × Unescape :=
  match u.step with
  | (some (.error e), u') => (some (.error e), { u' with rest := [] })
  | (decoded, u') => (decoded, u')

/-! ## the iterator makes progress -/

theorem length_advance_lt {u : Unescape} (hne : u.rest ≠ []) (hpos : 0 < count) :
    (u.advance count).rest.length < u.rest.length := by
  have hlen : 0 < u.rest.length := List.length_pos_iff.mpr hne
  simp only [advance, Str.getFrom?]
  cases hs : u.rest.splitAt? count with
  | none => simpa using hlen
  | some p =>
    obtain ⟨pre, rest⟩ := p
    obtain ⟨heq, hpre⟩ := Str.eq_append_of_splitAt? hs
    have hp : pre ≠ [] := by
      intro hnil
      rw [hnil, Str.len_nil] at hpre
      omega
    have := List.length_pos_iff.mpr hp
    simp only [Option.map_some, Option.getD_some]
    rw [heq, List.length_append]
    omega

/-- A `\u` escape that decodes has been consumed. -/
theorem length_decodeUnicodeEscape_lt {u : Unescape} (hne : u.rest ≠ [])
    (h : u.decodeUnicodeEscape.1 = .ok c) :
    u.decodeUnicodeEscape.2.rest.length < u.rest.length := by
  revert h
  fun_cases decodeUnicodeEscape u <;> intro h <;> first
    | exact length_advance_lt hne (Nat.succ_pos _)
    | cases h

/-- Every item the iterator yields shortens what is left of the body. -/
theorem length_next_lt {u u' : Unescape} (h : u.next = (some r, u')) :
    u'.rest.length < u.rest.length := by
  cases hrest : u.rest with
  | nil => simp [next, step, hrest] at h
  | cons c s =>
    have hne : u.rest ≠ [] := by simp [hrest]
    rw [← hrest]
    revert h
    simp only [next]
    split
    · intro h
      cases h
      simpa using List.length_pos_iff.mpr hne
    · next d v hnot heq =>
      intro h
      cases h
      revert heq
      fun_cases step u with
      | case1 h0 => exact absurd h0 hne
      | case2 c' s' hr hc =>
        intro heq
        cases heq
        exact length_advance_lt hne c'.utf8Size_pos
      | case3 => intro heq; cases heq; exact (hnot _ rfl).elim
      | case4 =>
        intro heq
        cases hd : u.decodeUnicodeEscape.1 with
        | error e => rw [hd] at heq; cases heq; exact (hnot _ rfl).elim
        | ok ch => rw [hd] at heq; cases heq; exact length_decodeUnicodeEscape_lt hne hd
      | case5 =>
        intro heq
        cases heq
        exact length_advance_lt hne (by decide)
      | case6 => intro heq; cases heq; exact (hnot _ rfl).elim

/-- All the items of the iterator, in order: what a `for` loop over it sees. -/
def items (u : Unescape) : List (Except Error Char) :=
  match _h : u.next with
  | (none, _) => []
  | (some r, u') => r :: u'.items
termination_by u.rest.length
decreasing_by exact length_next_lt _h

end Unescape

namespace EscapeString

/-- The length of the undecoded body in bytes. -/
def rawLen (s : EscapeString) : Nat := s.raw.len

/-- The iterator over the decoded characters. -/
def unescape (s : EscapeString) : Unescape := ⟨s.raw, 0⟩

/-- The loop of `eq_unescaped`: compares the decoded items with the expected
characters. -/
def eqItems : List (Except Error Char) → Str → Bool
  | [], expected => expected.isEmpty
  | .ok actual :: decoded, wanted :: expected =>
    if actual = wanted then eqItems decoded expected else false
  | _ :: _, _ => false

/-- Compares the decoded value with `other`, and uses no buffer. -/
def eqUnescaped (s : EscapeString) (other : Str) : Bool := eqItems s.unescape.items other

/-- The loop of `unescape_into`: encodes the decoded items one after another
into the buffer, and returns how many bytes it wrote. -/
def writeItems : List (Except Error Char) → Nat → List UInt8 → Except Error Nat × List UInt8
  | [], written, buffer => (.ok written, buffer)
  | .error e :: _, _, buffer => (.error e, buffer)
  | .ok character :: decoded, written, buffer =>
    let bytes := String.utf8EncodeChar character
    let stop := written + bytes.length
    if stop ≤ buffer.length then
      writeItems decoded stop (buffer.take written ++ bytes ++ buffer.drop stop)
    else (.error ⟨.bufferTooSmall, written⟩, buffer)

/-- Decodes the body into `buffer`. The outer `none` is the panic of the
`expect` on the UTF-8 check; the second component is the buffer afterwards. -/
def unescapeInto (s : EscapeString) (buffer : List UInt8) :
    Option (Except Error Str) × List UInt8 :=
  match writeItems s.unescape.items 0 buffer with
  | (.error e, buffer) => (some (.error e), buffer)
  | (.ok written, buffer) =>
    match Str.slice? buffer 0 written with
    | none => (some (.error ⟨.bufferTooSmall, written⟩), buffer)
    | some decoded => ((Str.fromUtf8 decoded).map .ok, buffer)

end EscapeString

end Kimojio.Json
