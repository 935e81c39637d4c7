/-!
# Kimojio.Rfc8259

The JSON grammar of RFC 8259, over characters, together with the values it
describes. A `Value` keeps what the grammar says about a text and nothing
more: numbers and strings stay the source text of their token, and the
members of an object stay in order and may repeat a name.

`Derives v s` reads "`s` is a text of the production *value* with parse tree
`v`", and follows the productions of the RFC one by one, white space around
the structural characters included. `JsonText v s` is the start symbol,
*ws value ws*.

The value of a string is a second reading of its body. The escapes are
resolved one by one into characters and UTF-16 code units, and the code units
into characters, two for a surrogate pair (`Decodes`). A body whose code
units do not pair up is well-formed JSON without a value in Unicode; it
decodes up to the first code unit that stands alone (`BreaksAt`).

This module is about JSON only; no scanner is mentioned here.
-/

namespace Rfc8259

/-- A JSON value as the grammar reads it: scalars hold the text of their
token, without the quotes for a string. -/
inductive Value where
  | null
  | boolean (value : Bool)
  | number (text : List Char)
  | string (body : List Char)
  | array (elements : List Value)
  | object (members : List (List Char × Value))

/-- Induction on values: a container has what its elements or members have. -/
theorem Value.induction {P : Value → Prop} (null : P .null) (boolean : ∀ value, P (.boolean value))
    (number : ∀ text, P (.number text)) (string : ∀ body, P (.string body))
    (array : ∀ vs, (∀ v ∈ vs, P v) → P (.array vs))
    (object : ∀ ms : List (List Char × Value), (∀ m ∈ ms, P m.2) → P (.object ms)) (v : Value) :
    P v := by
  refine @Value.rec P (fun vs => ∀ v ∈ vs, P v) (fun ms => ∀ m ∈ ms, P m.2) (fun m => P m.2)
    null boolean number string array object ?_ ?_ ?_ ?_ (fun _ _ hv => hv) v
  · exact fun _ hv => nomatch hv
  · exact fun v vs hv hvs => List.forall_mem_cons.mpr ⟨hv, hvs⟩
  · exact fun _ hm => nomatch hm
  · exact fun m ms hm hms => List.forall_mem_cons.mpr ⟨hm, hms⟩

/-! ## white space and structural characters (section 2) -/

/-- `ws = *( %x20 / %x09 / %x0A / %x0D )`, one character of it. -/
def isWs (c : Char) : Bool := c = ' ' || c = '\t' || c = '\n' || c = '\r'

/-- `ws`. -/
def Ws (s : List Char) : Prop := ∀ c ∈ s, isWs c = true

/-- A structural character with the white space the grammar allows around
it, such as `begin-array = ws %x5B ws`. -/
def Structural (c : Char) (s : List Char) : Prop :=
  ∃ w₁ w₂, Ws w₁ ∧ Ws w₂ ∧ s = w₁ ++ c :: w₂

/-! ## numbers (section 6) -/

/-- `DIGIT` -/
def isDigit (c : Char) : Bool := '0' ≤ c && c ≤ '9'

/-- `digit1-9` -/
def isDigit19 (c : Char) : Bool := '1' ≤ c && c ≤ '9'

/-- `1*DIGIT` -/
def Digits (s : List Char) : Prop := s ≠ [] ∧ ∀ c ∈ s, isDigit c = true

/-- `int = zero / ( digit1-9 *DIGIT )` -/
def IntPart (s : List Char) : Prop :=
  s = ['0'] ∨ ∃ d ds, isDigit19 d = true ∧ (∀ c ∈ ds, isDigit c = true) ∧ s = d :: ds

/-- `[ frac ]`, with `frac = decimal-point 1*DIGIT` -/
def FracPart (s : List Char) : Prop := s = [] ∨ ∃ ds, Digits ds ∧ s = '.' :: ds

/-- `[ minus / plus ]` of an exponent -/
def ExpSign (s : List Char) : Prop := s = [] ∨ s = ['-'] ∨ s = ['+']

/-- `[ exp ]`, with `exp = e [ minus / plus ] 1*DIGIT` -/
def ExpPart (s : List Char) : Prop :=
  s = [] ∨ ∃ e sg ds, (e = 'e' ∨ e = 'E') ∧ ExpSign sg ∧ Digits ds ∧ s = e :: (sg ++ ds)

/-- `number = [ minus ] int [ frac ] [ exp ]` -/
def Number (s : List Char) : Prop :=
  ∃ sg i f e, (sg = [] ∨ sg = ['-']) ∧ IntPart i ∧ FracPart f ∧ ExpPart e ∧
    s = sg ++ (i ++ (f ++ e))

/-- The value of decimal digits. -/
def decimalValue (digits : List Char) : Nat :=
  digits.foldl (fun value digit => 10 * value + (digit.toNat - '0'.toNat)) 0

/-- A number with neither fraction nor exponent, and its value. -/
inductive IsInteger : List Char → Int → Prop where
  | plain : IntPart digits → IsInteger digits (decimalValue digits)
  | minus : IntPart digits → IsInteger ('-' :: digits) (-decimalValue digits)

/-! ## strings (section 7) -/

/-- `unescaped = %x20-21 / %x23-5B / %x5D-10FFFF` -/
def isUnescaped (c : Char) : Bool := 0x20 ≤ c.toNat && c ≠ '"' && c ≠ '\\'

/-- The characters that may follow the escape character on their own. -/
def isSimpleEscape (c : Char) : Bool :=
  c = '"' || c = '\\' || c = '/' || c = 'b' || c = 'f' || c = 'n' || c = 'r' || c = 't'

/-- `HEXDIG`, in either case -/
def isHexDigit (c : Char) : Bool :=
  isDigit c || ('a' ≤ c && c ≤ 'f') || ('A' ≤ c && c ≤ 'F')

/-- `*char`: what stands between the quotation marks of a string. -/
inductive Chars : List Char → Prop where
  | nil : Chars []
  | unescaped : isUnescaped c = true → Chars s → Chars (c :: s)
  | simple : isSimpleEscape c = true → Chars s → Chars ('\\' :: c :: s)
  | unicode : isHexDigit h₁ = true → isHexDigit h₂ = true → isHexDigit h₃ = true →
      isHexDigit h₄ = true → Chars s → Chars ('\\' :: 'u' :: h₁ :: h₂ :: h₃ :: h₄ :: s)

/-- `string = quotation-mark *char quotation-mark` -/
def IsString (body s : List Char) : Prop := Chars body ∧ s = '"' :: (body ++ ['"'])

/-! ## values, arrays and objects (sections 3 to 5) -/

mutual
/-- `value = false / null / true / object / array / number / string` -/
def Derives : Value → List Char → Prop
  | .null, s => s = ['n', 'u', 'l', 'l']
  | .boolean true, s => s = ['t', 'r', 'u', 'e']
  | .boolean false, s => s = ['f', 'a', 'l', 's', 'e']
  | .number text, s => Number text ∧ s = text
  | .string body, s => IsString body s
  | .array vs, s => ∃ o m c, Structural '[' o ∧ DerivesElements vs m ∧ Structural ']' c ∧
      s = o ++ (m ++ c)
  | .object ms, s => ∃ o m c, Structural '{' o ∧ DerivesMembers ms m ∧ Structural '}' c ∧
      s = o ++ (m ++ c)

/-- `[ value *( value-separator value ) ]` -/
def DerivesElements : List Value → List Char → Prop
  | [], s => s = []
  | v :: vs, s => ∃ a b, Derives v a ∧ DerivesMoreElements vs b ∧ s = a ++ b

/-- `*( value-separator value )` -/
def DerivesMoreElements : List Value → List Char → Prop
  | [], s => s = []
  | v :: vs, s => ∃ m a b, Structural ',' m ∧ Derives v a ∧ DerivesMoreElements vs b ∧
      s = m ++ (a ++ b)

/-- `[ member *( value-separator member ) ]`, with
`member = string name-separator value` -/
def DerivesMembers : List (List Char × Value) → List Char → Prop
  | [], s => s = []
  | (k, v) :: ms, s => ∃ n m a b, IsString k n ∧ Structural ':' m ∧ Derives v a ∧
      DerivesMoreMembers ms b ∧ s = n ++ (m ++ (a ++ b))

/-- `*( value-separator member )` -/
def DerivesMoreMembers : List (List Char × Value) → List Char → Prop
  | [], s => s = []
  | (k, v) :: ms, s => ∃ l n m a b, Structural ',' l ∧ IsString k n ∧ Structural ':' m ∧
      Derives v a ∧ DerivesMoreMembers ms b ∧ s = l ++ (n ++ (m ++ (a ++ b)))
end

/-- `JSON-text = ws value ws` -/
def JsonText (v : Value) (s : List Char) : Prop :=
  ∃ w₁ t w₂, Ws w₁ ∧ Derives v t ∧ Ws w₂ ∧ s = w₁ ++ (t ++ w₂)

/-! ## nesting -/

mutual
/-- How many containers are open at the deepest point of a value. -/
def Value.depth : Value → Nat
  | .array vs => depthElements vs + 1
  | .object ms => depthMembers ms + 1
  | _ => 0

/-- The deepest element. -/
def Value.depthElements : List Value → Nat
  | [] => 0
  | v :: vs => max v.depth (Value.depthElements vs)

/-- The deepest member value. -/
def Value.depthMembers : List (List Char × Value) → Nat
  | [] => 0
  | (_, v) :: ms => max v.depth (Value.depthMembers ms)
end

/-! ## basic facts -/

theorem ws_nil : Ws [] := by simp [Ws]

theorem Ws.append (hs : Ws s) (ht : Ws t) : Ws (s ++ t) := by
  intro c hc
  rcases List.mem_append.mp hc with h | h
  · exact hs c h
  · exact ht c h

/-! ## the value of a string (section 7) -/

/-- The character of a two-character escape sequence. -/
def simpleValue (c : Char) : Char :=
  if c = 'b' then '\x08'
  else if c = 'f' then '\x0c'
  else if c = 'n' then '\n'
  else if c = 'r' then '\r'
  else if c = 't' then '\t'
  else c

/-- The value of a hexadecimal digit. -/
def hexDigitValue (c : Char) : Nat :=
  if isDigit c then c.toNat - '0'.toNat
  else if 'a' ≤ c && c ≤ 'f' then c.toNat - 'a'.toNat + 10
  else c.toNat - 'A'.toNat + 10

/-- The code unit of a `\u` escape. -/
def unitValue (h₁ h₂ h₃ h₄ : Char) : Nat :=
  ((hexDigitValue h₁ * 16 + hexDigitValue h₂) * 16 + hexDigitValue h₃) * 16 + hexDigitValue h₄

/-- What one *char* of a body stands for. -/
inductive Piece where
  | char (c : Char)
  | unit (u : Nat)

/-- The pieces of a body, in order. -/
inductive Pieces : List Char → List Piece → Prop where
  | nil : Pieces [] []
  | unescaped : isUnescaped c = true → Pieces s ps → Pieces (c :: s) (.char c :: ps)
  | simple : isSimpleEscape c = true → Pieces s ps →
      Pieces ('\\' :: c :: s) (.char (simpleValue c) :: ps)
  | unicode : isHexDigit h₁ = true → isHexDigit h₂ = true → isHexDigit h₃ = true →
      isHexDigit h₄ = true → Pieces s ps →
      Pieces ('\\' :: 'u' :: h₁ :: h₂ :: h₃ :: h₄ :: s) (.unit (unitValue h₁ h₂ h₃ h₄) :: ps)

/-- The code units that start a surrogate pair. -/
def IsHigh (u : Nat) : Prop := 0xD800 ≤ u ∧ u < 0xDC00

/-- The code units that end a surrogate pair. -/
def IsLow (u : Nat) : Prop := 0xDC00 ≤ u ∧ u < 0xE000

/-- The character of a surrogate pair. -/
def pairValue (u l : Nat) : Char := Char.ofNat (0x10000 + (u - 0xD800) * 0x400 + (l - 0xDC00))

/-- The pieces, with every surrogate in a pair, are the text `cs`. -/
inductive Paired : List Piece → List Char → Prop where
  | nil : Paired [] []
  | char : Paired ps cs → Paired (.char c :: ps) (c :: cs)
  | scalar : ¬ IsHigh u → ¬ IsLow u → Paired ps cs → Paired (.unit u :: ps) (Char.ofNat u :: cs)
  | pair : IsHigh u → IsLow l → Paired ps cs →
      Paired (.unit u :: .unit l :: ps) (pairValue u l :: cs)

/-- The first piece is a surrogate that is in no pair. -/
inductive StartsUnpaired : List Piece → Prop where
  | low : IsLow u → StartsUnpaired (.unit u :: ps)
  | high : IsHigh u → (∀ l ps', ps = .unit l :: ps' → ¬ IsLow l) → StartsUnpaired (.unit u :: ps)

/-- The body of a string has the value `cs`. -/
def Decodes (body cs : List Char) : Prop := ∃ ps, Pieces body ps ∧ Paired ps cs

/-- The part `before` of the body has the value `cs`, and an unpaired
surrogate follows it. -/
def BreaksAt (body before cs : List Char) : Prop :=
  ∃ after ps, body = before ++ after ∧ Decodes before cs ∧ Pieces after ps ∧ StartsUnpaired ps

/-- Every body of the grammar has pieces. -/
theorem Chars.exists_pieces (h : Chars s) : ∃ ps, Pieces s ps := by
  induction h with
  | nil => exact ⟨[], .nil⟩
  | unescaped hc _ ih => obtain ⟨ps, hps⟩ := ih; exact ⟨_, .unescaped hc hps⟩
  | simple hc _ ih => obtain ⟨ps, hps⟩ := ih; exact ⟨_, .simple hc hps⟩
  | unicode h₁ h₂ h₃ h₄ _ ih => obtain ⟨ps, hps⟩ := ih; exact ⟨_, .unicode h₁ h₂ h₃ h₄ hps⟩

theorem Pieces.append (hs : Pieces s ps) (ht : Pieces t qs) : Pieces (s ++ t) (ps ++ qs) := by
  induction hs with
  | nil => exact ht
  | unescaped hc _ ih => exact .unescaped hc ih
  | simple hc _ ih => exact .simple hc ih
  | unicode h₁ h₂ h₃ h₄ _ ih => exact .unicode h₁ h₂ h₃ h₄ ih

theorem Pieces.chars (h : Pieces s ps) : Chars s := by
  induction h with
  | nil => exact .nil
  | unescaped hc _ ih => exact .unescaped hc ih
  | simple hc _ ih => exact .simple hc ih
  | unicode h₁ h₂ h₃ h₄ _ ih => exact .unicode h₁ h₂ h₃ h₄ ih

/-- Pieces in front come from text in front. -/
theorem Pieces.exists_append (h : Pieces s (ps₁ ++ ps₂)) :
    ∃ s₁ s₂, s = s₁ ++ s₂ ∧ Pieces s₁ ps₁ ∧ Pieces s₂ ps₂ := by
  induction ps₁ generalizing s with
  | nil => exact ⟨[], s, rfl, .nil, h⟩
  | cons p ps₁ ih =>
    cases h with
    | unescaped hc h =>
      obtain ⟨s₁, s₂, rfl, h₁, h₂⟩ := ih h
      exact ⟨_ :: s₁, s₂, rfl, .unescaped hc h₁, h₂⟩
    | simple hc h =>
      obtain ⟨s₁, s₂, rfl, h₁, h₂⟩ := ih h
      exact ⟨_ :: _ :: s₁, s₂, rfl, .simple hc h₁, h₂⟩
    | unicode hh₁ hh₂ hh₃ hh₄ h =>
      obtain ⟨s₁, s₂, rfl, h₁, h₂⟩ := ih h
      exact ⟨_ :: _ :: _ :: _ :: _ :: _ :: s₁, s₂, rfl, .unicode hh₁ hh₂ hh₃ hh₄ h₁, h₂⟩

/-- Every sequence of pieces is paired, or has a first unpaired surrogate. -/
theorem paired_or_unpaired (ps : List Piece) :
    (∃ cs, Paired ps cs) ∨ ∃ ps₁ ps₂ cs, ps = ps₁ ++ ps₂ ∧ Paired ps₁ cs ∧ StartsUnpaired ps₂ := by
  match ps with
  | [] => exact .inl ⟨[], .nil⟩
  | .char c :: ps =>
    obtain ⟨cs, h⟩ | ⟨ps₁, ps₂, cs, rfl, h₁, h₂⟩ := paired_or_unpaired ps
    · exact .inl ⟨c :: cs, .char h⟩
    · exact .inr ⟨.char c :: ps₁, ps₂, c :: cs, rfl, .char h₁, h₂⟩
  | .unit u :: ps =>
    by_cases hlow : IsLow u
    · exact .inr ⟨[], .unit u :: ps, [], rfl, .nil, .low hlow⟩
    · by_cases hhigh : IsHigh u
      · match ps with
        | .unit l :: ps =>
          by_cases hl : IsLow l
          · obtain ⟨cs, h⟩ | ⟨ps₁, ps₂, cs, rfl, h₁, h₂⟩ := paired_or_unpaired ps
            · exact .inl ⟨_, .pair hhigh hl h⟩
            · exact .inr ⟨_ :: _ :: ps₁, ps₂, _, rfl, .pair hhigh hl h₁, h₂⟩
          · refine .inr ⟨[], _, [], rfl, .nil, .high hhigh ?_⟩
            rintro l' ps' heq
            cases heq
            exact hl
        | [] => exact .inr ⟨[], _, [], rfl, .nil, .high hhigh (by simp)⟩
        | .char c :: ps => exact .inr ⟨[], _, [], rfl, .nil, .high hhigh (by simp)⟩
      · obtain ⟨cs, h⟩ | ⟨ps₁, ps₂, cs, rfl, h₁, h₂⟩ := paired_or_unpaired ps
        · exact .inl ⟨_, .scalar hhigh hlow h⟩
        · exact .inr ⟨_ :: ps₁, ps₂, _, rfl, .scalar hhigh hlow h₁, h₂⟩

/-- A body of the grammar has a value, or breaks at an unpaired surrogate. -/
theorem Chars.decodes_or_breaksAt (h : Chars s) :
    (∃ cs, Decodes s cs) ∨ ∃ before cs, BreaksAt s before cs := by
  obtain ⟨ps, hps⟩ := h.exists_pieces
  obtain ⟨cs, hcs⟩ | ⟨ps₁, ps₂, cs, rfl, h₁, h₂⟩ := paired_or_unpaired ps
  · exact .inl ⟨cs, ps, hps, hcs⟩
  · obtain ⟨s₁, s₂, rfl, hs₁, hs₂⟩ := hps.exists_append
    exact .inr ⟨s₁, cs, s₂, ps₂, rfl, ⟨ps₁, hs₁, h₁⟩, hs₂, h₂⟩

end Rfc8259
