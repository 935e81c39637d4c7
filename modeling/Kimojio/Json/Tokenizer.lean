import Kimojio.Json.EscapeString

/-!
# Kimojio.Json.Tokenizer

Model of `kimojio-json/src/tokenizer.rs`, function by function: the byte
scanners, the bitmap that records the open containers, the nine-state loop of
`run`, and `drive` with its persistent failure.

The cursor is a byte offset into the UTF-8 encoding of the document, and the
loops are the loops of the source. Each arm of `run` commits the cursor, the
state and the stack and then makes at most one visitor call as its last
action, so an arm is modelled as the tokenizer it leaves behind together with
the call it makes (`Step`), and `run` passes that call to the visitor.

As in `Kimojio.Json.EscapeString`, offsets are natural numbers: a document
holds at most `isize::MAX` bytes, so the saturating additions do not saturate.
-/

namespace Kimojio.Json

/-- The number of `u64` words that hold the container stack. -/
def stackWords : Nat := 4

/-- The maximum container nesting depth that the tokenizer accepts. -/
def maxDepth : Nat := stackWords * 64

/-! ## the visitor -/

/-- One visitor call: the method, with its argument. -/
inductive Token where
  | escapeKey (name : EscapeString)
  | escapeString (value : EscapeString)
  | objectStart
  | objectEnd
  | arrayStart
  | arrayEnd
  | key (name : Str)
  | string (value : Str)
  | number (text : Str)
  | boolean (value : Bool)
  | null
  deriving DecidableEq, Repr

/-- The `Visitor` trait over a visitor state `σ`: each method may change the
state, and returns a value when it suspends the scan. The two methods for
escaped text have no default body. -/
structure Visitor (σ Out : Type) where
  escapeKey : EscapeString → σ → Option Out × σ
  escapeString : EscapeString → σ → Option Out × σ
  objectStart : σ → Option Out × σ := fun s => (none, s)
  objectEnd : σ → Option Out × σ := fun s => (none, s)
  arrayStart : σ → Option Out × σ := fun s => (none, s)
  arrayEnd : σ → Option Out × σ := fun s => (none, s)
  key : Str → σ → Option Out × σ := fun _ s => (none, s)
  string : Str → σ → Option Out × σ := fun _ s => (none, s)
  number : Str → σ → Option Out × σ := fun _ s => (none, s)
  boolean : Bool → σ → Option Out × σ := fun _ s => (none, s)
  null : σ → Option Out × σ := fun s => (none, s)

/-- Makes one visitor call. -/
def Visitor.call (v : Visitor σ Out) : Token → σ → Option Out × σ
  | .escapeKey name => v.escapeKey name
  | .escapeString value => v.escapeString value
  | .objectStart => v.objectStart
  | .objectEnd => v.objectEnd
  | .arrayStart => v.arrayStart
  | .arrayEnd => v.arrayEnd
  | .key name => v.key name
  | .string value => v.string value
  | .number text => v.number text
  | .boolean value => v.boolean value
  | .null => v.null

/-- A visitor written as one function of the call. -/
def Visitor.ofCall (f : Token → σ → Option Out × σ) : Visitor σ Out where
  escapeKey name := f (.escapeKey name)
  escapeString value := f (.escapeString value)
  objectStart := f .objectStart
  objectEnd := f .objectEnd
  arrayStart := f .arrayStart
  arrayEnd := f .arrayEnd
  key name := f (.key name)
  string value := f (.string value)
  number text := f (.number text)
  boolean value := f (.boolean value)
  null := f .null

@[simp] theorem Visitor.call_ofCall (f : Token → σ → Option Out × σ) (tok : Token) :
    (Visitor.ofCall f).call tok = f tok := by
  cases tok <;> rfl

/-! ## byte scanners -/

/-- `u8::is_ascii_digit` -/
def isAsciiDigit (byte : UInt8) : Bool := ascii '0' ≤ byte && byte ≤ ascii '9'

/-- `u8::is_ascii_hexdigit` -/
def isAsciiHexdigit (byte : UInt8) : Bool :=
  isAsciiDigit byte || (ascii 'a' ≤ byte && byte ≤ ascii 'f')
    || (ascii 'A' ≤ byte && byte ≤ ascii 'F')

/-- The loop of `skip_whitespace`: the byte at the first position that is not
white space, and that position. -/
def skipWhitespaceFrom (bytes : List UInt8) (offset : Nat) : Option UInt8 × Nat :=
  match _h : bytes[offset]? with
  | none => (none, offset)
  | some byte =>
    if byte > ascii ' ' then (some byte, offset)
    else if byte = ascii ' ' ∨ byte = ascii '\t' ∨ byte = ascii '\n' ∨ byte = ascii '\r' then
      skipWhitespaceFrom bytes (offset + 1)
    else (some byte, offset)
termination_by bytes.length - offset
decreasing_by
  have := (List.getElem?_eq_some_iff.mp _h).1
  omega

/-- Moves the cursor after a sequence of ASCII digits. -/
def skipDigits (bytes : List UInt8) (cursor : Nat) : Nat :=
  match _h : bytes[cursor]? with
  | none => cursor
  | some byte => if isAsciiDigit byte then skipDigits bytes (cursor + 1) else cursor
termination_by bytes.length - cursor
decreasing_by
  have := (List.getElem?_eq_some_iff.mp _h).1
  omega

/-- The inner loop of `scan_string`: moves the cursor over ordinary bytes. -/
def skipOrdinary (bytes : List UInt8) (cursor : Nat) : Nat :=
  match _h : bytes[cursor]? with
  | none => cursor
  | some byte =>
    if byte = ascii '"' ∨ byte = ascii '\\' ∨ byte < 0x20 then cursor
    else skipOrdinary bytes (cursor + 1)
termination_by bytes.length - cursor
decreasing_by
  have := (List.getElem?_eq_some_iff.mp _h).1
  omega

/-- Validates the escape sequence at `cursor` and returns the index of the
byte after the sequence. -/
def validateEscape (bytes : List UInt8) (cursor : Nat) : Except Error Nat :=
  match bytes[cursor + 1]? with
  | none => .error ⟨.unterminatedString, cursor + 1⟩
  | some escape =>
    if escape = ascii '"' ∨ escape = ascii '\\' ∨ escape = ascii '/' ∨ escape = ascii 'b' ∨
        escape = ascii 'f' ∨ escape = ascii 'n' ∨ escape = ascii 'r' ∨ escape = ascii 't' then
      .ok (cursor + 2)
    else if escape = ascii 'u' then
      match Str.slice? bytes (cursor + 2) (cursor + 6) with
      | none => .error ⟨.invalidEscape, cursor⟩
      | some digits =>
        if digits.all isAsciiHexdigit then .ok (cursor + 6)
        else .error ⟨.invalidEscape, cursor⟩
    else .error ⟨.invalidEscape, cursor⟩

theorem le_skipOrdinary (bytes : List UInt8) (cursor : Nat) :
    cursor ≤ skipOrdinary bytes cursor := by
  fun_induction skipOrdinary bytes cursor with
  | case1 | case2 => exact Nat.le_refl _
  | case3 _ _ _ _ ih => omega

/-- A valid escape sequence has at least two bytes. -/
theorem lt_of_validateEscape (h : validateEscape bytes cursor = .ok next) : cursor < next := by
  revert h
  fun_cases validateEscape bytes cursor <;> intro h <;> cases h <;> omega

/-- The outer loop of `scan_string`: the position of the closing quote, and
whether the body contains an escape sequence. -/
def scanBody (bytes : List UInt8) (cursor : Nat) (escaped : Bool) : Except Error (Nat × Bool) :=
  match _h : bytes[skipOrdinary bytes cursor]? with
  | none => .error ⟨.unterminatedString, skipOrdinary bytes cursor⟩
  | some byte =>
    if byte = ascii '"' then .ok (skipOrdinary bytes cursor, escaped)
    else if byte = ascii '\\' then
      match _hv : validateEscape bytes (skipOrdinary bytes cursor) with
      | .error e => .error e
      | .ok next => scanBody bytes next true
    else .error ⟨.controlCharacter, skipOrdinary bytes cursor⟩
termination_by bytes.length - cursor
decreasing_by
  have h1 := (List.getElem?_eq_some_iff.mp _h).1
  have h2 := lt_of_validateEscape _hv
  have h3 := le_skipOrdinary bytes cursor
  omega

/-- The integer part of `scan_number`. -/
def scanInt (bytes : List UInt8) (cursor : Nat) : Except Error Nat :=
  match bytes[cursor]? with
  | none => .error ⟨.unexpectedEof, cursor⟩
  | some byte =>
    if byte = ascii '0' then
      -- More digits must not follow a leading zero.
      if (bytes[cursor + 1]?).any isAsciiDigit then .error ⟨.invalidNumber, cursor + 1⟩
      else .ok (cursor + 1)
    else if isAsciiDigit byte then .ok (skipDigits bytes cursor)
    else .error ⟨.invalidNumber, cursor⟩

/-- The digits after a decimal point or an exponent: there must be one. -/
def scanSomeDigits (bytes : List UInt8) (cursor : Nat) : Except Error Nat :=
  if skipDigits bytes cursor = cursor then .error ⟨.invalidNumber, cursor⟩
  else .ok (skipDigits bytes cursor)

/-- The fraction of `scan_number`. -/
def scanFrac (bytes : List UInt8) (cursor : Nat) : Except Error Nat :=
  if bytes[cursor]? = some (ascii '.') then scanSomeDigits bytes (cursor + 1) else .ok cursor

/-- The exponent of `scan_number`. -/
def scanExp (bytes : List UInt8) (cursor : Nat) : Except Error Nat :=
  if bytes[cursor]? = some (ascii 'e') ∨ bytes[cursor]? = some (ascii 'E') then
    if bytes[cursor + 1]? = some (ascii '+') ∨ bytes[cursor + 1]? = some (ascii '-') then
      scanSomeDigits bytes (cursor + 2)
    else scanSomeDigits bytes (cursor + 1)
  else .ok cursor

/-- The scan of `scan_number`: the position after the last byte of the
number that starts at `start`. -/
def scanNumberFrom (bytes : List UInt8) (start : Nat) : Except Error Nat := do
  let cursor := if bytes[start]? = some (ascii '-') then start + 1 else start
  let cursor ← scanInt bytes cursor
  let cursor ← scanFrac bytes cursor
  scanExp bytes cursor

/-! ## the tokenizer -/

/-- The position of the scanner in the document grammar. -/
inductive State where
  | start
  | done
  | objectFirstKey
  | objectNextKey
  | objectValue
  | objectComma
  | arrayFirstValue
  | arrayNextValue
  | arrayComma
  deriving DecidableEq, Repr

/-- A forward-only JSON scanner. -/
structure Tokenizer where
  input : Str
  offset : Nat
  state : State
  /-- One bit per open container: `1` for an array, `0` for an object. -/
  stack : Vector (BitVec 64) stackWords
  depth : Nat
  failure : Option Error

/-- The outcome of one arm of `run`. -/
inductive Step where
  /-- The document is complete. -/
  | finished
  /-- The input violates the grammar. -/
  | failed (e : Error)
  /-- The arm makes no visitor call. -/
  | silent
  /-- The arm ends with this visitor call. -/
  | token (tok : Token)
  deriving DecidableEq, Repr

/-- The arm left the loop running: it made a visitor call, or none. -/
def Step.Continues : Step → Prop
  | .silent | .token _ => True
  | _ => False

namespace Tokenizer

/-- Makes a tokenizer for `input`. -/
def new (input : Str) : Tokenizer where
  input := input
  offset := 0
  state := .start
  stack := Vector.replicate stackWords 0#64
  depth := 0
  failure := none

/-- Skips insignificant whitespace and returns the byte at the cursor. -/
def skipWhitespace (t : Tokenizer) : Option UInt8 × Tokenizer :=
  let r := skipWhitespaceFrom t.input.bytes t.offset
  (r.1, { t with offset := r.2 })

/-- An error of `kind` at the current cursor. -/
def error (t : Tokenizer) (kind : ErrorKind) : Error := ⟨kind, t.offset⟩

/-- The word of the bitmap after recording a container in it. -/
def markWord (word : BitVec 64) (bit : BitVec 64) (isArray : Bool) : BitVec 64 :=
  if isArray then word ||| bit else word &&& ~~~bit

/-- Opens a container and records if the container is an array. -/
def push (t : Tokenizer) (isArray : Bool) : Except Error Tokenizer :=
  if maxDepth ≤ t.depth then .error (t.error .depthExceeded)
  else
    let word := t.depth / 64
    let bit := 1#64 <<< (t.depth % 64)
    .ok { t with
      stack := t.stack.setIfInBounds word (markWord (t.stack[word]?.getD 0#64) bit isArray)
      depth := t.depth + 1 }

/-- Returns `true` if the innermost open container is an array. -/
def inArray (t : Tokenizer) : Bool :=
  match t.depth with
  | 0 => false
  | level + 1 =>
    (t.stack[level / 64]?).any fun word : BitVec 64 => (word >>> (level % 64)) &&& 1#64 = 1#64

/-- Moves to the state that follows a completed value. -/
def afterValue (t : Tokenizer) : Tokenizer :=
  { t with
    state := if t.depth = 0 then .done else if t.inArray then .arrayComma else .objectComma }

/-- Closes the innermost container and moves the cursor after it. -/
def closeContainer (t : Tokenizer) : Tokenizer :=
  afterValue { t with offset := t.offset + 1, depth := t.depth - 1 }

/-- Consumes the keyword `word`. -/
def scanLiteral (t : Tokenizer) (word : Str) : Except Error Tokenizer :=
  match Str.slice? t.input.bytes t.offset (t.offset + word.len) with
  | some found =>
    if found = word.bytes then .ok { t with offset := t.offset + word.len }
    else .error (t.error .unexpectedByte)
  | none => .error (t.error .unexpectedEof)

/-- Scans a string body and leaves the cursor after the closing quote. -/
def scanString (t : Tokenizer) : Except Error ((Str × Bool) × Tokenizer) :=
  match scanBody t.input.bytes (t.offset + 1) false with
  | .error e => .error e
  | .ok (stop, escaped) =>
    match t.input.get? (t.offset + 1) stop with
    | none => .error ⟨.unterminatedString, stop⟩
    | some body => .ok ((body, escaped), { t with offset := stop + 1 })

/-- Scans a number and leaves the cursor after its last byte. -/
def scanNumber (t : Tokenizer) : Except Error (Str × Tokenizer) :=
  match scanNumberFrom t.input.bytes t.offset with
  | .error e => .error e
  | .ok cursor =>
    match t.input.get? t.offset cursor with
    | none => .error ⟨.invalidNumber, t.offset⟩
    | some text => .ok (text, { t with offset := cursor })

/-- Scans an object member name and the `:` that must follow it. -/
def scanKey (t : Tokenizer) (byte : UInt8) : Step × Tokenizer :=
  if byte ≠ ascii '"' then (.failed (t.error .expectedKey), t)
  else
    match t.scanString with
    | .error e => (.failed e, t)
    | .ok ((name, escaped), t) =>
      let (found, t) := t.skipWhitespace
      if found ≠ some (ascii ':') then (.failed (t.error .expectedColon), t)
      else
        (.token (if escaped then .escapeKey ⟨name⟩ else .key name),
          { t with offset := t.offset + 1, state := .objectValue })

/-- Opens a container of `scan_value`. -/
def openContainer (t : Tokenizer) (isArray : Bool) (state : State) (tok : Token) :
    Step × Tokenizer :=
  match t.push isArray with
  | .error e => (.failed e, t)
  | .ok t => (.token tok, { t with offset := t.offset + 1, state := state })

/-- A keyword of `scan_value`. -/
def scanWord (t : Tokenizer) (word : Str) (tok : Token) : Step × Tokenizer :=
  match t.scanLiteral word with
  | .error e => (.failed e, t)
  | .ok t => (.token tok, t.afterValue)

/-- Scans a value that starts with `byte`. -/
def scanValue (t : Tokenizer) (byte : UInt8) : Step × Tokenizer :=
  if byte = ascii '{' then t.openContainer false .objectFirstKey .objectStart
  else if byte = ascii '[' then t.openContainer true .arrayFirstValue .arrayStart
  else if byte = ascii '"' then
    match t.scanString with
    | .error e => (.failed e, t)
    | .ok ((text, escaped), t) =>
      (.token (if escaped then .escapeString ⟨text⟩ else .string text), t.afterValue)
  else if byte = ascii 't' then t.scanWord ['t', 'r', 'u', 'e'] (.boolean true)
  else if byte = ascii 'f' then t.scanWord ['f', 'a', 'l', 's', 'e'] (.boolean false)
  else if byte = ascii 'n' then t.scanWord ['n', 'u', 'l', 'l'] .null
  else if byte = ascii '-' ∨ isAsciiDigit byte then
    match t.scanNumber with
    | .error e => (.failed e, t)
    | .ok (number, t) => (.token (.number number), t.afterValue)
  else (.failed (t.error .unexpectedByte), t)

/-- The arms of `run`, on the byte that `skip_whitespace` returned. -/
def dispatch (t : Tokenizer) (byte : UInt8) : Step × Tokenizer :=
  match t.state with
  | .done => (.failed (t.error .trailingData), t)
  | .start | .objectValue | .arrayNextValue => t.scanValue byte
  | .arrayFirstValue =>
    if byte = ascii ']' then (.token .arrayEnd, t.closeContainer) else t.scanValue byte
  | .objectFirstKey =>
    if byte = ascii '}' then (.token .objectEnd, t.closeContainer) else t.scanKey byte
  | .objectNextKey => t.scanKey byte
  | .objectComma =>
    if byte = ascii ',' then
      (.silent, { t with offset := t.offset + 1, state := .objectNextKey })
    else if byte = ascii '}' then (.token .objectEnd, t.closeContainer)
    else (.failed (t.error .unexpectedByte), t)
  | .arrayComma =>
    if byte = ascii ',' then
      (.silent, { t with offset := t.offset + 1, state := .arrayNextValue })
    else if byte = ascii ']' then (.token .arrayEnd, t.closeContainer)
    else (.failed (t.error .unexpectedByte), t)

/-- One iteration of the loop of `run`. -/
def step (t : Tokenizer) : Step × Tokenizer :=
  match t.skipWhitespace with
  | (none, t) =>
    if t.state = .done then (.finished, t) else (.failed (t.error .unexpectedEof), t)
  | (some byte, t) => t.dispatch byte

/-! ## every arm that goes on consumes input -/

theorem le_skipWhitespaceFrom (bytes : List UInt8) (offset : Nat) :
    offset ≤ (skipWhitespaceFrom bytes offset).2 := by
  fun_induction skipWhitespaceFrom bytes offset with
  | case1 | case2 | case4 => exact Nat.le_refl _
  | case3 _ _ _ _ _ ih => omega

/-- The byte that `skip_whitespace` returns is the byte at the cursor. -/
theorem getElem?_skipWhitespaceFrom (bytes : List UInt8) (offset : Nat) :
    bytes[(skipWhitespaceFrom bytes offset).2]? = (skipWhitespaceFrom bytes offset).1 := by
  fun_induction skipWhitespaceFrom bytes offset with
  | case1 _ h | case2 _ _ h | case4 _ _ h => exact h
  | case3 _ _ _ _ _ ih => exact ih

theorem le_skipDigits (bytes : List UInt8) (cursor : Nat) : cursor ≤ skipDigits bytes cursor := by
  fun_induction skipDigits bytes cursor with
  | case1 | case3 => exact Nat.le_refl _
  | case2 _ _ _ _ ih => omega

theorem lt_of_scanBody (h : scanBody bytes cursor e = .ok (stop, e')) : cursor ≤ stop := by
  fun_induction scanBody bytes cursor e with
  | case1 | case3 | case5 => cases h
  | case2 => cases h; exact le_skipOrdinary _ _
  | case4 c _ next hv _ _ ih =>
    have h1 := ih h
    have h2 := lt_of_validateEscape hv
    have h3 := le_skipOrdinary bytes c
    omega

theorem lt_of_scanSomeDigits (h : scanSomeDigits bytes cursor = .ok stop) : cursor < stop := by
  have := le_skipDigits bytes cursor
  simp only [scanSomeDigits] at h
  split at h
  · cases h
  · cases h; omega

theorem lt_of_scanInt (h : scanInt bytes cursor = .ok stop) : cursor < stop := by
  revert h
  fun_cases scanInt bytes cursor with
  | case4 byte hb h0 hd =>
    intro h
    cases h
    have hskip : skipDigits bytes cursor = skipDigits bytes (cursor + 1) := by
      rw [skipDigits]
      split
      · next hn => rw [hn] at hb; cases hb
      · next b' hb' => rw [hb] at hb'; cases hb'; rw [if_pos hd]
    have := le_skipDigits bytes (cursor + 1)
    omega
  | case3 => intro h; cases h; omega
  | _ => intro h; cases h

theorem le_of_scanFrac (h : scanFrac bytes cursor = .ok stop) : cursor ≤ stop := by
  simp only [scanFrac] at h
  split at h
  · have := lt_of_scanSomeDigits h; omega
  · cases h; exact Nat.le_refl _

theorem le_of_scanExp (h : scanExp bytes cursor = .ok stop) : cursor ≤ stop := by
  simp only [scanExp] at h
  split at h
  · split at h <;> exact Nat.le_of_lt (Nat.lt_trans (by omega) (lt_of_scanSomeDigits h))
  · cases h; exact Nat.le_refl _

theorem lt_of_scanNumberFrom (h : scanNumberFrom bytes start = .ok stop) : start < stop := by
  simp only [scanNumberFrom, bind, Except.bind] at h
  split at h
  · cases h
  · next i hi =>
    split at h
    · cases h
    · next f hf =>
      have h1 := lt_of_scanInt hi
      have h2 := le_of_scanFrac hf
      have h3 := le_of_scanExp h
      split at h1 <;> omega

/-- A scanned string moves the cursor and nothing else. -/
theorem scanString_eq_ok {t t' : Tokenizer} (h : t.scanString = .ok (p, t')) :
    ∃ n, t.offset < n ∧ t' = { t with offset := n } := by
  simp only [scanString] at h
  split at h
  · cases h
  · next stop escaped hb =>
    have := lt_of_scanBody hb
    split at h
    · cases h
    · cases h
      exact ⟨stop + 1, by omega, rfl⟩

/-- A scanned number moves the cursor and nothing else. -/
theorem scanNumber_eq_ok {t t' : Tokenizer} (h : t.scanNumber = .ok (text, t')) :
    ∃ n, t.offset < n ∧ t' = { t with offset := n } := by
  simp only [scanNumber] at h
  split at h
  · cases h
  · next stop hn =>
    split at h
    · cases h
    · cases h
      exact ⟨stop, lt_of_scanNumberFrom hn, rfl⟩

/-- A consumed keyword moves the cursor and nothing else. -/
theorem scanLiteral_eq_ok {t t' : Tokenizer} (h : t.scanLiteral word = .ok t') :
    t' = { t with offset := t.offset + word.len } := by
  simp only [scanLiteral] at h
  split at h
  · split at h <;> cases h
    rfl
  · cases h

/-- `t'` is the same document, further on. -/
structure Ahead (t t' : Tokenizer) : Prop where
  input_eq : t'.input = t.input
  failure_eq : t'.failure = t.failure
  offset_lt : t.offset < t'.offset

theorem ahead_scanKey (h : (t.scanKey byte).1.Continues) :
    Ahead t (t.scanKey byte).2 := by
  revert h
  fun_cases scanKey t byte with
  | case4 _ name escaped t₁ hs r t₂ hr _ =>
    intro _
    obtain ⟨n, hn, rfl⟩ := scanString_eq_ok hs
    have hle := le_skipWhitespaceFrom t.input.bytes n
    cases hr
    exact ⟨rfl, rfl, by simp only; omega⟩
  | _ => intro h; exact h.elim

theorem ahead_openContainer {state : State} (h : (t.openContainer isArray state tok).1.Continues) :
    Ahead t (t.openContainer isArray state tok).2 := by
  revert h
  fun_cases openContainer t isArray state tok with
  | case1 => intro h; exact h.elim
  | case2 t₁ hp =>
    intro _
    simp only [push] at hp
    split at hp
    · cases hp
    · cases hp; exact ⟨rfl, rfl, Nat.lt_succ_self _⟩

theorem ahead_scanWord (hw : 0 < word.len) (h : (t.scanWord word tok).1.Continues) :
    Ahead t (t.scanWord word tok).2 := by
  revert h
  fun_cases scanWord t word tok with
  | case1 => intro h; exact h.elim
  | case2 t₁ hl =>
    intro _
    rw [scanLiteral_eq_ok hl]
    exact ⟨rfl, rfl, Nat.lt_add_of_pos_right hw⟩

theorem ahead_scanValue (h : (t.scanValue byte).1.Continues) :
    Ahead t (t.scanValue byte).2 := by
  revert h
  fun_cases scanValue t byte with
  | case1 | case2 => exact ahead_openContainer
  | case4 _ _ _ _ _ t₁ hs =>
    intro _
    obtain ⟨n, hn, rfl⟩ := scanString_eq_ok hs
    exact ⟨rfl, rfl, hn⟩
  | case5 | case6 | case7 => exact ahead_scanWord (by decide)
  | case9 _ _ _ _ _ _ _ _ t₁ hs =>
    intro _
    obtain ⟨n, hn, rfl⟩ := scanNumber_eq_ok hs
    exact ⟨rfl, rfl, hn⟩
  | _ => intro h; exact h.elim

theorem ahead_dispatch (h : (t.dispatch byte).1.Continues) : Ahead t (t.dispatch byte).2 := by
  revert h
  fun_cases dispatch t byte with
  | case1 => intro h; exact h.elim
  | case2 | case3 | case4 | case6 => exact ahead_scanValue
  | case8 | case9 => exact ahead_scanKey
  | case5 | case7 | case10 | case11 | case13 | case14 =>
    intro _
    exact ⟨rfl, rfl, Nat.lt_succ_self _⟩
  | _ => intro h; exact h.elim

/-- An iteration that goes on has read at least one byte of the document. -/
theorem ahead_step (h : t.step.1.Continues) : Ahead t t.step.2 ∧ t.offset < t.input.len := by
  have hle := le_skipWhitespaceFrom t.input.bytes t.offset
  have hget := getElem?_skipWhitespaceFrom t.input.bytes t.offset
  revert h
  fun_cases step t with
  | case1 | case2 => intro h; exact h.elim
  | case3 byte t₁ hs =>
    intro h
    simp only [skipWhitespace, Prod.mk.injEq] at hs
    obtain ⟨hb, rfl⟩ := hs
    obtain ⟨hin, hfail, hlt⟩ := ahead_dispatch h
    rw [hb] at hget
    have hlen := (List.getElem?_eq_some_iff.mp hget).1
    exact ⟨⟨hin, hfail, Nat.lt_of_le_of_lt hle hlt⟩, Nat.lt_of_le_of_lt hle hlen⟩

/-- The measure of the loop: an iteration that goes on leaves less to read. -/
theorem step_decreases {t t' : Tokenizer} (h : t.step = (s, t')) (hs : s.Continues) :
    t'.input.len - t'.offset < t.input.len - t.offset := by
  have hstep : t.step.1.Continues := by rw [h]; exact hs
  obtain ⟨⟨hin, -, hlt⟩, hlen⟩ := ahead_step hstep
  rw [h] at hin hlt
  simp only at hin hlt
  rw [hin]
  omega

/-! ## run and drive -/

/-- Scans until the visitor suspends the scan, the document ends, or the
input violates the grammar. -/
def run (v : Visitor σ Out) (t : Tokenizer) (s : σ) : Except Error (Option Out) × Tokenizer × σ :=
  match _h : t.step with
  | (.finished, t') => (.ok none, t', s)
  | (.failed e, t') => (.error e, t', s)
  | (.silent, t') => run v t' s
  | (.token tok, t') =>
    match v.call tok s with
    | (some output, s') => (.ok (some output), t', s')
    | (none, s') => run v t' s'
termination_by t.input.len - t.offset
decreasing_by
  all_goals exact step_decreases _h trivial

/-- Runs the scanner and reports each token to the visitor. A failure
persists. -/
def drive (v : Visitor σ Out) (t : Tokenizer) (s : σ) : Except Error (Option Out) × Tokenizer × σ :=
  match t.failure with
  | some failure => (.error failure, t, s)
  | none =>
    match run v t s with
    | (.ok output, t', s') => (.ok output, t', s')
    | (.error failure, t', s') => (.error failure, { t' with failure := some failure }, s')

end Tokenizer

end Kimojio.Json
