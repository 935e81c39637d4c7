import Kimojio.Json.Scan

/-!
# Kimojio.Json.Machine

The tokenizer as a pushdown machine over characters, and the proof that the
code computes it.

A configuration `Cfg` is the grammar state, the open containers as a list
(innermost first, `true` for an array) and the characters that are left. One
step of it is the same nine-state transition as `Tokenizer.step`, with the
scanners of `Kimojio.Json.Scan` in place of the byte loops and a list in
place of the bitmap.

`Refines input t c` relates the two levels: the cursor is the offset of what
is left, and bit `i` of the four words is the kind of the container opened
`i`-th. `Refines.step` is the simulation, one step for one step; everything
later is proved about `Cfg` only.
-/

namespace Kimojio.Json

open Rfc8259 (isWs isDigit)
open Str

/-! ## the machine -/

/-- The call for a member name: escaped when it has a backslash. -/
def keyToken (name : Str) : Token := if '\\' ∈ name then .escapeKey ⟨name⟩ else .key name

/-- The call for a string value: escaped when it has a backslash. -/
def stringToken (value : Str) : Token :=
  if '\\' ∈ value then .escapeString ⟨value⟩ else .string value

/-- The outcome of one step of the machine. -/
inductive Move where
  | finished
  | failed (f : Fault)
  | silent
  | token (tok : Token)
  deriving DecidableEq, Repr

/-- A configuration of the machine. -/
structure Cfg where
  state : State
  /-- The open containers, innermost first: `true` for an array. -/
  stack : List Bool
  rest : Str
  deriving DecidableEq, Repr

namespace Cfg

/-- The state after a completed value inside the given containers. -/
def after : List Bool → State
  | [] => .done
  | true :: _ => .arrayComma
  | false :: _ => .objectComma

/-- The configuration after a value, with `rest` left. -/
def valueEnd (stack : List Bool) (rest : Str) : Cfg := ⟨after stack, stack, rest⟩

/-- A scalar: the call for the token that was read. -/
def scalar (c : Cfg) (tok : Str → Token) : Except Fault (Str × Str) → Move × Cfg
  | .error f => (.failed f, c)
  | .ok (text, rest) => (.token (tok text), valueEnd c.stack rest)

/-- The start of a container, with `rest` after its bracket. -/
def openContainer (c : Cfg) (isArray : Bool) (state : State) (tok : Token) (rest : Str) :
    Move × Cfg :=
  if maxDepth ≤ c.stack.length then (.failed ⟨.depthExceeded, c.rest⟩, c)
  else (.token tok, ⟨state, isArray :: c.stack, rest⟩)

/-- The start of a value: `c.rest` is `first :: rest`. -/
def value (c : Cfg) (first : Char) (rest : Str) : Move × Cfg :=
  if first = '{' then c.openContainer false .objectFirstKey .objectStart rest
  else if first = '[' then c.openContainer true .arrayFirstValue .arrayStart rest
  else if first = '"' then c.scalar stringToken (stringBody rest)
  else if first = 't' then
    c.scalar (fun _ => .boolean true) (literal ['t', 'r', 'u', 'e'] c.rest)
  else if first = 'f' then
    c.scalar (fun _ => .boolean false) (literal ['f', 'a', 'l', 's', 'e'] c.rest)
  else if first = 'n' then c.scalar (fun _ => .null) (literal ['n', 'u', 'l', 'l'] c.rest)
  else if first = '-' ∨ isDigit first = true then c.scalar .number (number c.rest)
  else (.failed ⟨.unexpectedByte, c.rest⟩, c)

/-- What follows a member name: the colon. -/
def colon (c : Cfg) (name : Str) : Str → Move × Cfg
  | [] => (.failed ⟨.expectedColon, []⟩, { c with rest := [] })
  | d :: rest =>
    if d = ':' then (.token (keyToken name), ⟨.objectValue, c.stack, rest⟩)
    else (.failed ⟨.expectedColon, d :: rest⟩, { c with rest := d :: rest })

/-- A member name and its colon: `c.rest` is `first :: rest`. -/
def key (c : Cfg) (first : Char) (rest : Str) : Move × Cfg :=
  if first = '"' then
    match stringBody rest with
    | .error f => (.failed f, c)
    | .ok (name, rest) => c.colon name (skipWs rest)
  else (.failed ⟨.expectedKey, c.rest⟩, c)

/-- The end of the innermost container, with `rest` after its bracket. -/
def close (c : Cfg) (tok : Token) (rest : Str) : Move × Cfg :=
  (.token tok, valueEnd c.stack.tail rest)

/-- One step on the first character that is not white space: `c.rest` is
`first :: rest`. -/
def dispatch (c : Cfg) (first : Char) (rest : Str) : Move × Cfg :=
  match c.state with
  | .done => (.failed ⟨.trailingData, c.rest⟩, c)
  | .start | .objectValue | .arrayNextValue => c.value first rest
  | .arrayFirstValue => if first = ']' then c.close .arrayEnd rest else c.value first rest
  | .objectFirstKey => if first = '}' then c.close .objectEnd rest else c.key first rest
  | .objectNextKey => c.key first rest
  | .objectComma =>
    if first = ',' then (.silent, ⟨.objectNextKey, c.stack, rest⟩)
    else if first = '}' then c.close .objectEnd rest
    else (.failed ⟨.unexpectedByte, c.rest⟩, c)
  | .arrayComma =>
    if first = ',' then (.silent, ⟨.arrayNextValue, c.stack, rest⟩)
    else if first = ']' then c.close .arrayEnd rest
    else (.failed ⟨.unexpectedByte, c.rest⟩, c)

/-- One step of the machine on the text that is left, white space skipped. -/
def stepAt (c : Cfg) : Str → Move × Cfg
  | [] =>
    if c.state = .done then (.finished, { c with rest := [] })
    else (.failed ⟨.unexpectedEof, []⟩, { c with rest := [] })
  | first :: rest => dispatch { c with rest := first :: rest } first rest

/-- One step of the machine. -/
def step (c : Cfg) : Move × Cfg := c.stepAt (skipWs c.rest)

end Cfg

/-! ## what a step can do -/

/-- The tokens that are a whole value. -/
def Token.IsScalar : Token → Prop
  | .escapeString _ | .string _ | .number _ | .boolean _ | .null => True
  | _ => False

/-- The tokens that are a member name. -/
def Token.IsKey : Token → Prop
  | .escapeKey _ | .key _ => True
  | _ => False

/-- The text of a token is text of the grammar, and a name or string is
passed on as escaped exactly when it has a backslash. -/
def Token.Valid : Token → Prop
  | .escapeKey body | .escapeString body => Rfc8259.Chars body.raw ∧ '\\' ∈ body.raw
  | .key body | .string body => Rfc8259.Chars body ∧ '\\' ∉ body
  | .number text => Rfc8259.Number text
  | _ => True

theorem keyToken_valid (h : Rfc8259.Chars name) :
    (keyToken name).IsKey ∧ (keyToken name).Valid := by
  rw [keyToken]
  split
  · next hb => exact ⟨trivial, h, hb⟩
  · next hb => exact ⟨trivial, h, hb⟩

theorem stringToken_valid (h : Rfc8259.Chars value) :
    (stringToken value).IsScalar ∧ (stringToken value).Valid := by
  rw [stringToken]
  split
  · next hb => exact ⟨trivial, h, hb⟩
  · next hb => exact ⟨trivial, h, hb⟩

namespace Cfg

/-- A value may start in this state. -/
def ExpectsValue (state : State) : Prop :=
  state = .start ∨ state = .objectValue ∨ state = .arrayNextValue ∨ state = .arrayFirstValue

/-- A member name may start in this state. -/
def ExpectsKey (state : State) : Prop := state = .objectNextKey ∨ state = .objectFirstKey

/-- `rest` is what is left after reading at least one character of `s`. -/
def Shorter (rest s : Str) : Prop := rest <:+ s ∧ rest.length < s.length

/-- What a step can do: the move, and the configuration after it. -/
inductive Moves (c : Cfg) : Move → Cfg → Prop where
  | finished : c.state = .done → Moves c .finished ⟨c.state, c.stack, []⟩
  | failed : r <:+ c.rest → Moves c (.failed f) ⟨c.state, c.stack, r⟩
  | scalar : ExpectsValue c.state → tok.IsScalar ∧ tok.Valid → Shorter r c.rest →
      Moves c (.token tok) (valueEnd c.stack r)
  | arrayStart : ExpectsValue c.state → c.stack.length < maxDepth → Shorter r c.rest →
      Moves c (.token .arrayStart) ⟨.arrayFirstValue, true :: c.stack, r⟩
  | objectStart : ExpectsValue c.state → c.stack.length < maxDepth → Shorter r c.rest →
      Moves c (.token .objectStart) ⟨.objectFirstKey, false :: c.stack, r⟩
  | key : ExpectsKey c.state → tok.IsKey ∧ tok.Valid → Shorter r c.rest →
      Moves c (.token tok) ⟨.objectValue, c.stack, r⟩
  | arrayEnd : c.state = .arrayFirstValue ∨ c.state = .arrayComma → Shorter r c.rest →
      Moves c (.token .arrayEnd) (valueEnd c.stack.tail r)
  | objectEnd : c.state = .objectFirstKey ∨ c.state = .objectComma → Shorter r c.rest →
      Moves c (.token .objectEnd) (valueEnd c.stack.tail r)
  | arrayComma : c.state = .arrayComma → Shorter r c.rest →
      Moves c .silent ⟨.arrayNextValue, c.stack, r⟩
  | objectComma : c.state = .objectComma → Shorter r c.rest →
      Moves c .silent ⟨.objectNextKey, c.stack, r⟩

theorem shorter_cons (d : Char) (rest : Str) : Shorter rest (d :: rest) :=
  ⟨List.suffix_cons d rest, by simp⟩

theorem shorter_of_append {token rest s : Str} (h : s = token ++ rest) (hne : token ≠ []) :
    Shorter rest s := by
  subst h
  refine ⟨List.suffix_append token rest, ?_⟩
  have := List.length_pos_iff.mpr hne
  rw [List.length_append]
  omega

theorem Shorter.trans_suffix (h : Shorter r s) (hs : s <:+ s') : Shorter r s' :=
  ⟨h.1.trans hs, Nat.lt_of_lt_of_le h.2 hs.length_le⟩

theorem Shorter.of_suffix (h : Shorter s s') (hs : r <:+ s) : Shorter r s' :=
  ⟨hs.trans h.1, Nat.lt_of_le_of_lt hs.length_le h.2⟩

theorem scalar_moves (hv : ExpectsValue c.state) (hr : ∀ {text rest}, r = .ok (text, rest) →
      ((tok text).IsScalar ∧ (tok text).Valid) ∧ Shorter rest c.rest) :
    Moves c (c.scalar tok r).1 (c.scalar tok r).2 := by
  cases r with
  | error f => exact .failed (List.suffix_refl _)
  | ok p => exact .scalar hv (hr rfl).1 (hr rfl).2

theorem openContainer_moves (hv : ExpectsValue c.state) {rest : Str} (hr : c.rest = d :: rest) :
    Moves c (c.openContainer true .arrayFirstValue .arrayStart rest).1
        (c.openContainer true .arrayFirstValue .arrayStart rest).2 ∧
      Moves c (c.openContainer false .objectFirstKey .objectStart rest).1
        (c.openContainer false .objectFirstKey .objectStart rest).2 := by
  have hs : Shorter rest c.rest := by rw [hr]; exact shorter_cons d rest
  simp only [openContainer]
  split
  · exact ⟨.failed (List.suffix_refl _), .failed (List.suffix_refl _)⟩
  · next h => exact ⟨.arrayStart hv (by omega) hs, .objectStart hv (by omega) hs⟩

theorem number_ne_nil {s text rest : Str} (h : number s = .ok (text, rest)) : text ≠ [] := by
  obtain ⟨sg, i, f, e, -, hi, -, -, rfl⟩ := number_sound h
  rcases hi with rfl | ⟨d, ds, -, -, rfl⟩ <;> simp

theorem value_rule {P : Move × Cfg → Prop} (c : Cfg) (first : Char) (rest : Str)
    (object : first = '{' → P (c.openContainer false .objectFirstKey .objectStart rest))
    (array : first = '[' → P (c.openContainer true .arrayFirstValue .arrayStart rest))
    (string : first = '"' → P (c.scalar stringToken (stringBody rest)))
    (true : first = 't' →
      P (c.scalar (fun _ => .boolean true) (literal ['t', 'r', 'u', 'e'] c.rest)))
    (false : first = 'f' →
      P (c.scalar (fun _ => .boolean false) (literal ['f', 'a', 'l', 's', 'e'] c.rest)))
    (null : first = 'n' → P (c.scalar (fun _ => .null) (literal ['n', 'u', 'l', 'l'] c.rest)))
    (num : P (c.scalar .number (number c.rest)))
    (failed : P (.failed ⟨.unexpectedByte, c.rest⟩, c)) : P (c.value first rest) := by
  have choose {p : Prop} [Decidable p] {x y : Move × Cfg} (hx : p → P x) (hy : P y) :
      P (if p then x else y) := by
    split
    · next hp => exact hx hp
    · exact hy
  exact choose object (choose array (choose string (choose true (choose false (choose null
    (choose (fun _ => num) failed))))))

theorem value_moves (hv : ExpectsValue c.state) {rest : Str} (hr : c.rest = d :: rest) :
    Moves c (c.value d rest).1 (c.value d rest).2 := by
  have hopen := openContainer_moves hv hr
  have hword : ∀ word : Str, word ≠ [] → ∀ {text rest'},
      literal word c.rest = .ok (text, rest') → Shorter rest' c.rest := fun word hne _ _ h =>
    shorter_of_append (literal_sound h).2 hne
  have hstring : ∀ {text rest'}, stringBody rest = .ok (text, rest') →
      ((stringToken text).IsScalar ∧ (stringToken text).Valid) ∧ Shorter rest' c.rest := by
    intro text rest' h
    obtain ⟨hchars, hs⟩ := stringBody_sound h
    refine ⟨stringToken_valid hchars, ?_⟩
    rw [hr]
    exact (shorter_cons d rest).of_suffix ⟨text ++ ['"'], by rw [hs]; simp⟩
  refine value_rule (P := fun p => Moves c p.1 p.2) c d rest ?object ?array ?string ?true ?false
    ?null ?num ?failed
  case object => exact fun _ => hopen.2
  case array => exact fun _ => hopen.1
  case string => exact fun _ => scalar_moves hv hstring
  case true | false | null =>
    exact fun _ => scalar_moves hv fun h => ⟨⟨trivial, trivial⟩, hword _ (by simp) h⟩
  case num =>
    exact scalar_moves hv fun h => ⟨⟨trivial, number_sound h⟩,
      shorter_of_append (computes_number.splits h) (number_ne_nil h)⟩
  case failed => exact .failed (List.suffix_refl _)

theorem key_moves (hk : ExpectsKey c.state) {rest : Str} (hr : c.rest = d :: rest) :
    Moves c (c.key d rest).1 (c.key d rest).2 := by
  simp only [key]
  split
  · cases hb : stringBody rest with
    | error f => exact .failed (List.suffix_refl _)
    | ok p =>
      obtain ⟨name, rest'⟩ := p
      obtain ⟨hchars, hs⟩ := stringBody_sound hb
      have hname : Shorter rest' c.rest := by
        rw [hr]
        exact (shorter_cons d rest).of_suffix ⟨name ++ ['"'], by rw [hs]; simp⟩
      have hws : Shorter (skipWs rest') c.rest := hname.of_suffix (List.dropWhile_suffix _)
      simp only
      cases hcolon : skipWs rest' with
      | nil => exact .failed (List.nil_suffix)
      | cons e s =>
        rw [hcolon] at hws
        simp only [colon]
        split
        · exact .key hk (keyToken_valid hchars) (hws.of_suffix (List.suffix_cons e s))
        · exact .failed hws.1
  · exact .failed (List.suffix_refl _)

theorem dispatch_moves {rest : Str} (hr : c.rest = d :: rest) :
    Moves c (c.dispatch d rest).1 (c.dispatch d rest).2 := by
  have hs : Shorter rest c.rest := by rw [hr]; exact shorter_cons d rest
  simp only [dispatch]
  split
  · exact .failed (List.suffix_refl _)
  · next h => exact value_moves (.inl h) hr
  · next h => exact value_moves (.inr (.inl h)) hr
  · next h => exact value_moves (.inr (.inr (.inl h))) hr
  · next h =>
    split
    · exact .arrayEnd (.inl h) hs
    · exact value_moves (.inr (.inr (.inr h))) hr
  · next h =>
    split
    · exact .objectEnd (.inl h) hs
    · exact key_moves (.inr h) hr
  · next h => exact key_moves (.inl h) hr
  · next h =>
    split
    · exact .objectComma h hs
    split
    · exact .objectEnd (.inr h) hs
    · exact .failed (List.suffix_refl _)
  · next h =>
    split
    · exact .arrayComma h hs
    split
    · exact .arrayEnd (.inr h) hs
    · exact .failed (List.suffix_refl _)

/-- White space in front changes nothing about what a step can do. -/
theorem Moves.of_suffix (hs : s <:+ c.rest) (h : Moves { c with rest := s } m c') :
    Moves c m c' := by
  cases h with
  | finished h => exact .finished h
  | failed h => exact .failed (h.trans hs)
  | scalar h htok hr => exact .scalar h htok (hr.trans_suffix hs)
  | arrayStart h hd hr => exact .arrayStart h hd (hr.trans_suffix hs)
  | objectStart h hd hr => exact .objectStart h hd (hr.trans_suffix hs)
  | key h htok hr => exact .key h htok (hr.trans_suffix hs)
  | arrayEnd h hr => exact .arrayEnd h (hr.trans_suffix hs)
  | objectEnd h hr => exact .objectEnd h (hr.trans_suffix hs)
  | arrayComma h hr => exact .arrayComma h (hr.trans_suffix hs)
  | objectComma h hr => exact .objectComma h (hr.trans_suffix hs)

/-- Every step is one of these. -/
theorem step_moves (c : Cfg) : Moves c c.step.1 c.step.2 := by
  have hsuf : skipWs c.rest <:+ c.rest := List.dropWhile_suffix _
  rw [step]
  cases hrest : skipWs c.rest with
  | nil =>
    simp only [stepAt]
    split
    · next h => exact .finished h
    · exact .failed List.nil_suffix
  | cons d rest =>
    rw [hrest] at hsuf
    exact .of_suffix hsuf (dispatch_moves rfl)

/-! ### what every step keeps -/

/-- The state agrees with the innermost open container. -/
def WellFormed (c : Cfg) : Prop :=
  match c.state with
  | .start | .done => c.stack = []
  | .objectFirstKey | .objectNextKey | .objectValue | .objectComma => c.stack.head? = some false
  | .arrayFirstValue | .arrayNextValue | .arrayComma => c.stack.head? = some true

theorem wellFormed_valueEnd (stack : List Bool) (rest : Str) :
    (valueEnd stack rest).WellFormed := by
  cases stack with
  | nil => rfl
  | cons b stack => cases b <;> rfl

/-- A move leads to a well-formed state. -/
theorem Moves.wellFormed (h : Moves c m c') (hc : c.WellFormed) : c'.WellFormed := by
  cases h with
  | finished | failed => exact hc
  | scalar | arrayEnd | objectEnd => exact wellFormed_valueEnd _ _
  | arrayStart | objectStart => rfl
  | key h =>
    rcases h with h | h <;> rw [WellFormed, h] at hc <;> exact hc
  | arrayComma h | objectComma h => rw [WellFormed, h] at hc; exact hc

/-- The tokens of a step are tokens of the grammar. -/
theorem Moves.valid (h : Moves c (.token tok) c') : tok.Valid := by
  cases h with
  | scalar _ htok | key _ htok => exact htok.2
  | arrayStart | objectStart | arrayEnd | objectEnd => trivial

theorem Moves.suffix (h : Moves c m c') : c'.rest <:+ c.rest := by
  cases h with
  | finished => exact List.nil_suffix
  | failed h => exact h
  | scalar _ _ h | arrayStart _ _ h | objectStart _ _ h | key _ _ h | arrayEnd _ h
  | objectEnd _ h | arrayComma _ h | objectComma _ h => exact h.1

end Cfg

/-! ## the bitmap -/

namespace Tokenizer

/-- The bit of the container opened at `level`. -/
def bit (t : Tokenizer) (level : Nat) : Bool :=
  (t.stack[level / 64]?).any fun word : BitVec 64 => word.getLsbD (level % 64)

theorem inArray_succ {t : Tokenizer} (h : t.depth = level + 1) : t.inArray = t.bit level := by
  have hbit : ∀ (word : BitVec 64) (k : Nat),
      decide ((word >>> k) &&& 1#64 = 1#64) = word.getLsbD k := by
    intro word k
    rw [BitVec.and_one_eq_setWidth_ofBool_getLsbD, BitVec.getLsbD_ushiftRight, Nat.add_zero]
    cases word.getLsbD k <;> decide
  simp only [inArray, h, bit, hbit]

theorem getLsbD_markWord (word : BitVec 64) (hj : j < 64) (isArray : Bool) :
    (markWord word (1#64 <<< k) isArray).getLsbD j =
      if j = k then isArray else word.getLsbD j := by
  have hbit : (1#64 <<< k).getLsbD j = decide (j = k) := by
    simp only [BitVec.getLsbD_shiftLeft, hj, decide_true, Bool.true_and, BitVec.getLsbD_one]
    by_cases h : j < k
    · simp [h, Nat.ne_of_lt h]
    · have : j - k = 0 ↔ j = k := by omega
      simp [h, this]
  cases isArray
  · simp only [markWord, Bool.false_eq_true, if_false, BitVec.getLsbD_and, BitVec.getLsbD_not, hbit,
      hj, decide_true, Bool.true_and]
    by_cases h : j = k <;> simp [h]
  · simp only [markWord, if_true, BitVec.getLsbD_or, hbit]
    by_cases h : j = k <;> simp [h]

/-- The tokenizer after a container was opened. -/
def opened (t : Tokenizer) (isArray : Bool) : Tokenizer :=
  { t with
    stack := t.stack.setIfInBounds (t.depth / 64)
      (markWord (t.stack[t.depth / 64]?.getD 0#64) (1#64 <<< (t.depth % 64)) isArray)
    depth := t.depth + 1 }

theorem push_eq (t : Tokenizer) (isArray : Bool) : t.push isArray =
      if maxDepth ≤ t.depth then .error (t.error .depthExceeded) else .ok (t.opened isArray) := rfl

/-- Opening a container writes one bit and keeps the others, across the
words of the bitmap. -/
theorem bit_opened (t : Tokenizer) (isArray : Bool) (hl : level < maxDepth) :
    (t.opened isArray).bit level = if level = t.depth then isArray else t.bit level := by
  have hw : level / 64 < stackWords := by simp only [maxDepth, stackWords] at hl ⊢; omega
  simp only [bit, opened, Vector.getElem?_setIfInBounds]
  by_cases hword : t.depth / 64 = level / 64
  · have hmod : level % 64 = t.depth % 64 ↔ level = t.depth := by omega
    have hlt : level % 64 < 64 := Nat.mod_lt _ (by decide)
    simp [hword, hw, getLsbD_markWord _ hlt, hmod]
  · have hne : level ≠ t.depth := fun h => hword (by rw [h])
    simp only [if_neg hword, if_neg hne]

end Tokenizer

/-! ## the refinement -/

/-- The tokenizer `t`, on the document `input`, is in configuration `c`. -/
structure Refines (input : Str) (t : Tokenizer) (c : Cfg) : Prop where
  input_eq : t.input = input
  suffix : c.rest <:+ input
  offset_eq : t.offset = offsetOf input c.rest
  state_eq : t.state = c.state
  depth_eq : t.depth = c.stack.length
  depth_le : c.stack.length ≤ maxDepth
  bits : ∀ level < c.stack.length, c.stack.reverse[level]? = some (t.bit level)

/-- The step of the code for a move of the machine. -/
def Move.toStep (input : Str) : Move → Step
  | .finished => .finished
  | .failed f => .failed (f.error input)
  | .silent => .silent
  | .token tok => .token tok

/-- A step of the code and a step of the machine agree. -/
def Agree (input : Str) (p : Step × Tokenizer) (q : Move × Cfg) : Prop :=
  p.1 = q.1.toStep input ∧ Refines input p.2 q.2

theorem Agree.ite [Decidable p] [Decidable q] (hpq : p ↔ q) (hyes : q → Agree input x y)
    (hno : ¬ q → Agree input x' y') : Agree input (if p then x else x') (if q then y else y') := by
  by_cases hq : q
  · rw [if_pos hq, if_pos (hpq.mpr hq)]
    exact hyes hq
  · rw [if_neg hq, if_neg fun hp => hq (hpq.mp hp)]
    exact hno hq

namespace Refines

theorem new (input : Str) : Refines input (Tokenizer.new input) ⟨.start, [], input⟩ where
  input_eq := rfl
  suffix := List.suffix_refl _
  offset_eq := by simp [Tokenizer.new, offsetOf]
  state_eq := rfl
  depth_eq := rfl
  depth_le := Nat.zero_le _
  bits := by simp

section
variable (h : Refines input t c)
include h

/-- The part of the document before the cursor. -/
theorem exists_pre :
    ∃ pre, input = pre ++ c.rest ∧ t.input = pre ++ c.rest ∧ t.offset = len pre := by
  obtain ⟨pre, hpre⟩ := h.suffix
  refine ⟨pre, hpre.symm, by rw [h.input_eq, hpre], ?_⟩
  rw [h.offset_eq, ← hpre, offsetOf_append]

/-- Moving the cursor over a part of what is left. -/
theorem advance (hs : rest <:+ c.rest) (state : State) :
    Refines input { t with offset := offsetOf input rest, state := state }
      ⟨state, c.stack, rest⟩ where
  input_eq := h.input_eq
  suffix := hs.trans h.suffix
  offset_eq := rfl
  state_eq := rfl
  depth_eq := h.depth_eq
  depth_le := h.depth_le
  bits := h.bits

theorem afterValue :
    Refines input t.afterValue (Cfg.valueEnd c.stack c.rest) where
  input_eq := h.input_eq
  suffix := h.suffix
  offset_eq := h.offset_eq
  state_eq := by
    have hbits := h.bits
    have hdepth := h.depth_eq
    simp only [Tokenizer.afterValue, Cfg.valueEnd]
    cases hstack : c.stack with
    | nil =>
      rw [hstack] at hdepth
      simp [hdepth, Cfg.after]
    | cons b stack =>
      rw [hstack] at hdepth hbits
      have htop : t.inArray = b := by
        have hbit := hbits stack.length (by simp)
        rw [Tokenizer.inArray_succ hdepth]
        simpa using hbit.symm
      have hne : t.depth ≠ 0 := by rw [hdepth]; simp
      rw [if_neg hne, htop]
      cases b <;> rfl
  depth_eq := h.depth_eq
  depth_le := h.depth_le
  bits := h.bits

theorem opened (hd : ¬ maxDepth ≤ c.stack.length) (isArray : Bool) :
    Refines input (t.opened isArray) ⟨c.state, isArray :: c.stack, c.rest⟩ where
  input_eq := h.input_eq
  suffix := h.suffix
  offset_eq := h.offset_eq
  state_eq := h.state_eq
  depth_eq := by simp [Tokenizer.opened, h.depth_eq]
  depth_le := by simp only [List.length_cons]; omega
  bits := by
    intro level hl
    simp only [List.length_cons] at hl
    have hmax : level < maxDepth := by omega
    rw [Tokenizer.bit_opened t isArray hmax, h.depth_eq, List.reverse_cons]
    by_cases htop : level = c.stack.length
    · subst htop
      simp
    · have hlt : level < c.stack.length := by omega
      rw [if_neg htop, List.getElem?_append_left (by simpa using hlt), h.bits level hlt]

theorem closed :
    Refines input { t with depth := t.depth - 1 } ⟨c.state, c.stack.tail, c.rest⟩ where
  input_eq := h.input_eq
  suffix := h.suffix
  offset_eq := h.offset_eq
  state_eq := h.state_eq
  depth_eq := by simp [h.depth_eq]
  depth_le := by
    have := h.depth_le
    simp only [List.length_tail]
    omega
  bits := by
    have hbits := h.bits
    intro level hl
    simp only [List.length_tail] at hl
    cases hstack : c.stack with
    | nil => rw [hstack] at hl; simp at hl
    | cons b stack =>
      rw [hstack] at hbits hl
      simp only [List.length_cons, Nat.add_sub_cancel] at hl
      have hbit := hbits level (by simp; omega)
      rw [List.reverse_cons, List.getElem?_append_left (by simpa using hl)] at hbit
      exact hbit

theorem offset_succ (hd : IsAscii d) (hr : c.rest = d :: rest) :
    t.offset + 1 = offsetOf input rest := by
  obtain ⟨pre, hin, -, hoff⟩ := h.exists_pre
  rw [hr, List.append_cons] at hin
  rw [hoff, hin, offsetOf_append]
  simp [utf8Size_of_isAscii hd]

/-! ### the scanners -/

theorem error_eq (kind : ErrorKind) :
    t.error kind = (Fault.mk kind c.rest).error input := by
  rw [Tokenizer.error, h.offset_eq]
  rfl

/-- `scan_string` reads a string body. -/
theorem scanString_eq (hr : c.rest = '"' :: s) : t.scanString =
      match stringBody s with
      | .error f => .error (f.error input)
      | .ok (body, rest) =>
        .ok ((body, decide ('\\' ∈ body)), { t with offset := offsetOf input rest }) := by
  obtain ⟨pre, hin, htin, hoff⟩ := h.exists_pre
  rw [hr, List.append_cons] at hin htin
  have hstart : t.offset + 1 = len (pre ++ ['"']) := by rw [hoff]; simp; rfl
  rw [Tokenizer.scanString, hstart, htin, scanBody_eq]
  cases hb : stringBody s with
  | error f => simp only [bodyResult, hin]
  | ok p =>
    obtain ⟨body, rest⟩ := p
    obtain ⟨-, hs⟩ := stringBody_sound hb
    have hcut : (pre ++ ['"']) ++ s = ((pre ++ ['"']) ++ body ++ ['"']) ++ rest := by
      rw [hs]; simp
    have hget : get? ((pre ++ ['"']) ++ s) (len (pre ++ ['"'])) (len (pre ++ ['"'] ++ body)) =
        some body := by
      rw [hs, len_append (pre ++ ['"']) body]
      exact get?_append _ _ _
    have hend : len (pre ++ ['"'] ++ body) + 1 = offsetOf input rest := by
      rw [hin, hcut, offsetOf_append, len_append _ ['"']]
      rfl
    simp only [bodyResult, hget, hend, Bool.false_or]

/-- `scan_number` reads a number. -/
theorem scanNumber_eq : t.scanNumber =
      match number c.rest with
      | .error f => .error (f.error input)
      | .ok (text, rest) => .ok (text, { t with offset := offsetOf input rest }) := by
  obtain ⟨pre, hin, htin, hoff⟩ := h.exists_pre
  rw [Tokenizer.scanNumber, hoff, htin, computes_number.eq]
  cases hn : number c.rest with
  | error f => simp only [located, hin]
  | ok p =>
    obtain ⟨text, rest⟩ := p
    have hs := computes_number.splits hn
    have hoffset : offsetOf (pre ++ c.rest) rest = len pre + len text := by
      rw [hs, ← List.append_assoc, offsetOf_append, len_append]
    have hget : get? (pre ++ c.rest) (len pre) (len pre + len text) = some text := by
      rw [hs]
      exact get?_append _ _ _
    simp only [located, hoffset, hget, hin]

theorem scanLiteral_eq (hw : ∀ d ∈ word, IsAscii d) : t.scanLiteral word =
      match literal word c.rest with
      | .error f => .error (f.error input)
      | .ok (_, rest) => .ok { t with offset := offsetOf input rest } := by
  obtain ⟨pre, hin, htin, hoff⟩ := h.exists_pre
  rw [Tokenizer.scanLiteral, h.error_eq, h.error_eq, hoff, htin, slice?_append, literal]
  by_cases hlen : len word ≤ len c.rest
  · simp only [if_pos hlen, take_bytes_eq_iff hw]
    by_cases hp : word <+: c.rest
    · obtain ⟨rest, hrest⟩ := hp
      have hoffset : offsetOf input rest = len pre + len word := by
        rw [hin, ← hrest, ← List.append_assoc, offsetOf_append, len_append]
      rw [← hrest]
      simp [hoffset]
    · simp only [if_neg hp]
  · simp only [if_neg hlen]

/-! ### one step for one step -/

theorem valueEnd (hs : rest <:+ c.rest) :
    Refines input ({ t with offset := offsetOf input rest } : Tokenizer).afterValue
      (Cfg.valueEnd c.stack rest) :=
  (h.advance hs c.state).afterValue

theorem agree_failed (kind : ErrorKind) :
    Agree input (.failed (t.error kind), t) (.failed ⟨kind, c.rest⟩, c) :=
  ⟨by rw [h.error_eq]; rfl, h⟩

theorem agree_openContainer (hd : IsAscii d) (hr : c.rest = d :: rest)
    (isArray : Bool) (state : State) (tok : Token) :
    Agree input (t.openContainer isArray state tok) (c.openContainer isArray state tok rest) := by
  rw [Tokenizer.openContainer, Tokenizer.push_eq, Cfg.openContainer, h.depth_eq]
  by_cases hdepth : maxDepth ≤ c.stack.length
  · simp only [if_pos hdepth]
    exact h.agree_failed _
  · simp only [if_neg hdepth]
    refine ⟨rfl, ?_⟩
    have hs : rest <:+ c.rest := by rw [hr]; exact List.suffix_cons d rest
    have hnext := (h.opened hdepth isArray).advance hs state
    rw [← h.offset_succ hd hr] at hnext
    exact hnext

theorem agree_scanWord (hw : ∀ d ∈ word, IsAscii d) (tok : Token) :
    Agree input (t.scanWord word tok) (c.scalar (fun _ => tok) (literal word c.rest)) := by
  rw [Tokenizer.scanWord, h.scanLiteral_eq hw]
  cases hl : literal word c.rest with
  | error f => exact ⟨rfl, h⟩
  | ok p =>
    obtain ⟨text, rest⟩ := p
    exact ⟨rfl, h.valueEnd ⟨word, (literal_sound hl).2.symm⟩⟩

theorem agree_scanValue (hr : c.rest = d :: rest) :
    Agree input (t.scanValue (lead d)) (c.value d rest) := by
  refine .ite (lead_eq_ascii_iff (by decide)) (fun hd => ?_) fun _ => ?_
  · subst hd
    exact h.agree_openContainer (by decide) hr _ _ _
  refine .ite (lead_eq_ascii_iff (by decide)) (fun hd => ?_) fun _ => ?_
  · subst hd
    exact h.agree_openContainer (by decide) hr _ _ _
  refine .ite (lead_eq_ascii_iff (by decide)) (fun hd => ?_) fun _ => ?_
  · subst hd
    rw [h.scanString_eq hr]
    cases hb : stringBody rest with
    | error f => exact ⟨rfl, h⟩
    | ok p =>
      obtain ⟨body, rest'⟩ := p
      have hs : rest' <:+ c.rest := by
        rw [hr, (stringBody_sound hb).2]
        exact ⟨'"' :: body ++ ['"'], by simp⟩
      refine ⟨?_, h.valueEnd hs⟩
      simp [Cfg.scalar, Move.toStep, stringToken]
  refine .ite (lead_eq_ascii_iff (by decide)) (fun _ => ?_) fun _ => ?_
  · exact h.agree_scanWord (isAscii_of_all (by decide)) _
  refine .ite (lead_eq_ascii_iff (by decide)) (fun _ => ?_) fun _ => ?_
  · exact h.agree_scanWord (isAscii_of_all (by decide)) _
  refine .ite (lead_eq_ascii_iff (by decide)) (fun _ => ?_) fun _ => ?_
  · exact h.agree_scanWord (isAscii_of_all (by decide)) _
  have hnumber : lead d = ascii '-' ∨ isAsciiDigit (lead d) = true ↔
      d = '-' ∨ isDigit d = true := by
    rw [lead_eq_ascii_iff (by decide), byteClass_digit.lead]
  refine .ite hnumber (fun _ => ?_) fun _ => h.agree_failed _
  rw [h.scanNumber_eq]
  cases hn : number c.rest with
  | error f => exact ⟨rfl, h⟩
  | ok p =>
    obtain ⟨text, rest'⟩ := p
    exact ⟨rfl, h.valueEnd ⟨text, (computes_number.splits hn).symm⟩⟩

theorem skipWhitespace_eq :
    t.skipWhitespace = (head (skipWs c.rest),
      { t with offset := offsetOf input (skipWs c.rest) }) := by
  obtain ⟨pre, hin, htin, hoff⟩ := h.exists_pre
  rw [Tokenizer.skipWhitespace, hoff, htin, skipWhitespaceFrom_eq, hin]

end

theorem skipWs_suffix (s : Str) : skipWs s <:+ s := List.dropWhile_suffix _

section
variable (h : Refines input t c)
include h

theorem moved (hs : rest <:+ c.rest) :
    Refines input { t with offset := offsetOf input rest } { c with rest := rest } := by
  have := h.advance hs c.state
  exact { this with state_eq := h.state_eq }

theorem agree_scanKey (hr : c.rest = d :: rest) :
    Agree input (t.scanKey (lead d)) (c.key d rest) := by
  rw [Tokenizer.scanKey, Cfg.key]
  simp (disch := decide) only [ne_eq, lead_eq_ascii_iff]
  by_cases hd : d = '"'
  · subst hd
    rw [if_neg (not_not_intro rfl), if_pos rfl, h.scanString_eq hr]
    cases hb : stringBody rest with
    | error f => exact ⟨rfl, h⟩
    | ok p =>
      obtain ⟨name, rest'⟩ := p
      have hs : rest' <:+ c.rest := by
        rw [hr, (stringBody_sound hb).2]
        exact ⟨'"' :: name ++ ['"'], by simp⟩
      have hname := h.moved hs
      have hws := hname.moved (skipWs_suffix rest')
      simp only [hname.skipWhitespace_eq]
      cases hcolon : skipWs rest' with
      | nil =>
        rw [hcolon] at hws
        exact hws.agree_failed _
      | cons e s =>
        rw [hcolon] at hws
        simp only [head_cons, Option.some.injEq, Cfg.colon]
        simp (disch := decide) only [lead_eq_ascii_iff]
        by_cases he : e = ':'
        · subst he
          rw [if_neg (not_not_intro rfl), if_pos rfl]
          have hnext := hws.advance (List.suffix_cons ':' s) .objectValue
          rw [← hws.offset_succ (by decide) rfl] at hnext
          refine ⟨?_, hnext⟩
          simp [Move.toStep, keyToken]
        · rw [if_pos he, if_neg he]
          exact hws.agree_failed _
  · rw [if_pos hd, if_neg hd]
    exact h.agree_failed _

theorem agree_close (hd : IsAscii d) (hr : c.rest = d :: rest)
    (tok : Token) : Agree input (.token tok, t.closeContainer) (c.close tok rest) := by
  refine ⟨rfl, ?_⟩
  have hs : rest <:+ c.rest := by rw [hr]; exact List.suffix_cons d rest
  have hnext := h.closed.valueEnd hs
  rw [← h.offset_succ hd hr] at hnext
  exact hnext

theorem agree_silent (hd : IsAscii d) (hr : c.rest = d :: rest)
    (state : State) :
    Agree input (.silent, { t with offset := t.offset + 1, state := state })
      (.silent, ⟨state, c.stack, rest⟩) := by
  refine ⟨rfl, ?_⟩
  rw [h.offset_succ hd hr]
  exact h.advance (by rw [hr]; exact List.suffix_cons d rest) state

/-- Tokenizer and machine dispatch alike. -/
theorem agree_dispatch (hr : c.rest = d :: rest) :
    Agree input (t.dispatch (lead d)) (c.dispatch d rest) := by
  rw [Tokenizer.dispatch, Cfg.dispatch, h.state_eq]
  simp (disch := decide) only [lead_eq_ascii_iff]
  cases c.state with
  | done => exact h.agree_failed _
  | start | objectValue | arrayNextValue => exact h.agree_scanValue hr
  | objectNextKey => exact h.agree_scanKey hr
  | arrayFirstValue =>
    simp only
    split
    · next hd => subst hd; exact h.agree_close (by decide) hr _
    · exact h.agree_scanValue hr
  | objectFirstKey =>
    simp only
    split
    · next hd => subst hd; exact h.agree_close (by decide) hr _
    · exact h.agree_scanKey hr
  | objectComma | arrayComma =>
    simp only
    split
    · next hd => subst hd; exact h.agree_silent (by decide) hr _
    split
    · next hd => subst hd; exact h.agree_close (by decide) hr _
    · exact h.agree_failed _

/-- **Simulation**: a step of the code is the step of the machine. -/
theorem step : Agree input t.step c.step := by
  have hws := h.moved (skipWs_suffix c.rest)
  rw [Tokenizer.step, h.skipWhitespace_eq, Cfg.step]
  cases hrest : skipWs c.rest with
  | nil =>
    rw [hrest] at hws
    simp only [head_nil, Cfg.stepAt]
    by_cases hd : c.state = .done
    · rw [if_pos (h.state_eq.trans hd), if_pos hd]
      exact ⟨rfl, hws⟩
    · rw [if_neg (fun he => hd (h.state_eq.symm.trans he)), if_neg hd]
      exact hws.agree_failed _
  | cons d rest =>
    rw [hrest] at hws
    simp only [head_cons, Cfg.stepAt]
    exact hws.agree_dispatch rfl

end

end Refines

end Kimojio.Json
