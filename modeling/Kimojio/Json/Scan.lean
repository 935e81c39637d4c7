import Kimojio.Rfc8259
import Kimojio.Json.Tokenizer

/-!
# Kimojio.Json.Scan

The scanners of `Kimojio.Json.Tokenizer` read bytes at an offset. Here each
of them is given its meaning on the characters that are left: what it
consumes, what remains, and where it reports an error.

A character scanner returns the token it read and the remaining text, or a
`Fault`: the kind of the error with the text that is left where the error is
reported. `offsetOf input rest` turns such a position back into a byte
offset. For each byte scanner there is one lemma (`computes_intPart`,
`computes_number`, `scanBody_eq`, …) that says it computes the character
scanner, and for each character scanner a soundness and a completeness lemma
against the productions of `Rfc8259`.
-/

namespace Kimojio.Json

open Rfc8259 (isWs isDigit isDigit19 isHexDigit isSimpleEscape isUnescaped)
open Str

/-! ## positions -/

/-- A rejection of the input, with the text that is left where it is
reported. -/
structure Fault where
  kind : ErrorKind
  rest : Str
  deriving DecidableEq, Repr

/-- The byte offset at which `rest` starts in `input`. -/
def offsetOf (input rest : Str) : Nat := input.len - rest.len

theorem offsetOf_append (pre rest : Str) : offsetOf (pre ++ rest) rest = pre.len := by
  simp [offsetOf]

/-- The error of the byte scanner for a fault of the character scanner. -/
def Fault.error (f : Fault) (input : Str) : Error := ⟨f.kind, offsetOf input f.rest⟩

/-- The result of a byte scanner on `input` for the result of a character
scanner: the offset of what remains. -/
def located (input : Str) : Except Fault (Str × Str) → Except Error Nat
  | .ok (_, rest) => .ok (offsetOf input rest)
  | .error f => .error (f.error input)

/-- Puts text in front of the token a character scanner read. -/
def prepend (text : Str) : Except Fault (Str × Str) → Except Fault (Str × Str)
  | .ok (token, rest) => .ok (text ++ token, rest)
  | .error f => .error f

@[simp] theorem prepend_ok (text token rest : Str) :
    prepend text (.ok (token, rest)) = .ok (text ++ token, rest) := rfl

theorem prepend_eq_ok (h : prepend text r = .ok (token, rest)) :
    ∃ token', r = .ok (token', rest) ∧ token = text ++ token' := by
  cases r with
  | error f => cases h
  | ok p =>
    obtain ⟨token', rest'⟩ := p
    cases h
    exact ⟨token', rfl, rfl⟩

@[simp] theorem located_prepend (input text : Str) (r : Except Fault (Str × Str)) :
    located input (prepend text r) = located input r := by
  cases r <;> rfl

theorem located_ok_append (pre token rest : Str) :
    located (pre ++ rest) (.ok (token, rest)) = .ok pre.len := by
  rw [located, offsetOf_append]

theorem located_error_append (pre rest : Str) (kind : ErrorKind) :
    located (pre ++ rest) (.error ⟨kind, rest⟩) = .error ⟨kind, pre.len⟩ := by
  rw [located, Fault.error, offsetOf_append]

/-- Two character scanners one after the other. -/
def andThen (p q : Str → Except Fault (Str × Str)) (s : Str) : Except Fault (Str × Str) :=
  match p s with
  | .error f => .error f
  | .ok (token, rest) => prepend token (q rest)

/-- The byte scanner `P` computes the character scanner `p`: at every
character boundary it gives the located result of `p`, which cuts what is left
into a token and a rest. -/
structure Computes (P : List UInt8 → Nat → Except Error Nat)
    (p : Str → Except Fault (Str × Str)) : Prop where
  eq : ∀ pre s, P (bytes (pre ++ s)) (len pre) = located (pre ++ s) (p s)
  splits : ∀ {s token rest}, p s = .ok (token, rest) → s = token ++ rest

namespace Computes

/-- Running the byte scanner after one ASCII character. -/
theorem after (h : Computes P p) (hc : IsAscii c) (pre s : Str) :
    P (bytes (pre ++ c :: s)) (len pre + 1) = located (pre ++ c :: s) (prepend [c] (p s)) := by
  have heq := h.eq (pre ++ [c]) s
  rw [← List.append_cons, len_append, len_cons, len_nil, utf8Size_of_isAscii hc] at heq
  rw [located_prepend]
  exact heq

/-- Byte scanners in sequence compute the character scanners in sequence. -/
theorem andThen (hp : Computes P p) (hq : Computes Q q) :
    Computes (fun bs cursor => P bs cursor >>= Q bs) (andThen p q) where
  eq pre s := by
    simp only [hp.eq, Json.andThen]
    cases h : p s with
    | error f => rfl
    | ok a =>
      obtain ⟨token, rest⟩ := a
      have hs : pre ++ s = (pre ++ token) ++ rest := by
        rw [hp.splits h, List.append_assoc]
      simp only [located_prepend, hs, located_ok_append]
      exact hq.eq _ _
  splits := by
    intro s token rest h
    simp only [Json.andThen] at h
    split at h
    · cases h
    · next t r hp' =>
      obtain ⟨t', hq', rfl⟩ := prepend_eq_ok h
      rw [hp.splits hp', hq.splits hq', List.append_assoc]

end Computes

/-! ## byte classes -/

theorem byteClass_digit : ByteClass isAsciiDigit isDigit :=
  ByteClass.range (by decide) (by decide)

theorem byteClass_hexdigit : ByteClass isAsciiHexdigit isHexDigit :=
  (byteClass_digit.or (ByteClass.range (by decide) (by decide))).or
    (ByteClass.range (by decide) (by decide))

/-! ## white space -/

/-- `skip_whitespace` on characters: what remains. -/
def skipWs (s : Str) : Str := s.dropWhile isWs

@[simp] theorem skipWs_nil : skipWs [] = [] := rfl

theorem skipWs_cons (c : Char) (s : Str) :
    skipWs (c :: s) = if isWs c then skipWs s else c :: s := by
  simp [skipWs, List.dropWhile_cons]

theorem skipWs_append (h : Rfc8259.Ws w) (s : Str) : skipWs (w ++ s) = skipWs s :=
  List.dropWhile_append_of_pos h

theorem exists_ws_append_skipWs (s : Str) : ∃ w, Rfc8259.Ws w ∧ s = w ++ skipWs s :=
  ⟨s.takeWhile isWs, List.all_eq_true.mp List.all_takeWhile, (List.takeWhile_append_dropWhile).symm⟩

/-- White space is not a byte above the space. -/
theorem lead_le_space_of_isWs (h : isWs c = true) : ¬ lead c > ascii ' ' ∧
      (lead c = ascii ' ' ∨ lead c = ascii '\t' ∨ lead c = ascii '\n' ∨ lead c = ascii '\r') := by
  simp only [isWs, Bool.or_eq_true, decide_eq_true_eq] at h
  rcases h with ((rfl | rfl) | rfl) | rfl <;> decide

theorem lead_ne_of_not_isWs (h : ¬ isWs c = true) :
    ¬ (lead c = ascii ' ' ∨ lead c = ascii '\t' ∨ lead c = ascii '\n' ∨ lead c = ascii '\r') := by
  rw [lead_eq_ascii_iff (by decide), lead_eq_ascii_iff (by decide),
    lead_eq_ascii_iff (by decide), lead_eq_ascii_iff (by decide)]
  simpa [isWs, or_assoc] using h

/-- `skip_whitespace` at a character boundary. -/
theorem skipWhitespaceFrom_eq (pre s : Str) : skipWhitespaceFrom (bytes (pre ++ s)) pre.len =
      (head (skipWs s), offsetOf (pre ++ s) (skipWs s)) := by
  induction s generalizing pre with
  | nil =>
    rw [skipWhitespaceFrom]
    split
    · simp [offsetOf]
    · next h => rw [getElem?_len] at h; cases h
  | cons c s ih =>
    rw [skipWhitespaceFrom]
    split
    · next h => rw [getElem?_len] at h; simp at h
    · next byte h =>
      rw [getElem?_len, head_cons, Option.some.injEq] at h
      subst h
      rw [skipWs_cons]
      by_cases hc : isWs c = true
      · obtain ⟨hgt, heq⟩ := lead_le_space_of_isWs hc
        have hsize : c.utf8Size = 1 := by
          simp only [isWs, Bool.or_eq_true, decide_eq_true_eq] at hc
          rcases hc with ((rfl | rfl) | rfl) | rfl <;> rfl
        have hstep := ih (pre ++ [c])
        rw [← List.append_cons, len_append, len_cons, len_nil, hsize] at hstep
        rw [if_neg hgt, if_pos heq, if_pos hc]
        exact hstep
      · rw [if_neg (lead_ne_of_not_isWs hc), if_neg hc, offsetOf_append, head_cons]
        split <;> rfl

/-! ## digits -/

/-- `skip_digits` at a character boundary. -/
theorem skipDigits_eq (pre s : Str) :
    skipDigits (bytes (pre ++ s)) pre.len = len (pre ++ s.takeWhile isDigit) := by
  induction s generalizing pre with
  | nil =>
    rw [skipDigits]
    split
    · simp
    · next h => rw [getElem?_len] at h; cases h
  | cons c s ih =>
    rw [skipDigits]
    split
    · next h => rw [getElem?_len] at h; simp at h
    · next byte h =>
      rw [getElem?_len, head_cons, Option.some.injEq] at h
      subst h
      rw [byteClass_digit.lead, List.takeWhile_cons]
      by_cases hc : isDigit c = true
      · have hsize := utf8Size_of_isAscii (byteClass_digit.isAscii hc)
        have hstep := ih (pre ++ [c])
        rw [← List.append_cons, ← List.append_cons, len_append, len_cons, len_nil, hsize] at hstep
        rw [if_pos hc, if_pos hc]
        exact hstep
      · rw [if_neg hc, if_neg hc, List.append_nil]

/-- The digits after a decimal point or an exponent, on characters. -/
def someDigits (s : Str) : Except Fault (Str × Str) :=
  if s.takeWhile isDigit = [] then .error ⟨.invalidNumber, s⟩
  else .ok (s.takeWhile isDigit, s.dropWhile isDigit)

theorem located_digits (pre s : Str) :
    located (pre ++ s) (.ok (s.takeWhile isDigit, s.dropWhile isDigit)) =
      .ok (len (pre ++ s.takeWhile isDigit)) := by
  have h : pre ++ s = (pre ++ s.takeWhile isDigit) ++ s.dropWhile isDigit := by
    rw [List.append_assoc, List.takeWhile_append_dropWhile]
  rw [h, located_ok_append]

theorem someDigits_sound (h : someDigits s = .ok (d, r)) : Rfc8259.Digits d ∧ s = d ++ r := by
  rw [someDigits] at h
  split at h
  · cases h
  · next hne =>
    cases h
    exact ⟨⟨hne, List.all_eq_true.mp List.all_takeWhile⟩, List.takeWhile_append_dropWhile.symm⟩

theorem computes_someDigits : Computes scanSomeDigits someDigits where
  eq pre s := by
    rw [scanSomeDigits, someDigits, skipDigits_eq]
    by_cases h : s.takeWhile isDigit = []
    · rw [if_pos (by rw [h, List.append_nil]), if_pos h, located_error_append]
    · have hne : len (pre ++ s.takeWhile isDigit) ≠ len pre := by
        have := mt (len_eq_zero_iff (s.takeWhile isDigit)).mp h
        rw [len_append]
        omega
      rw [if_neg hne, if_neg h, located_digits]
  splits h := (someDigits_sound h).2

/-- No digit follows. -/
def NoDigit (r : Str) : Prop := ∀ c ∈ r.head?, isDigit c = false

theorem takeWhile_append_of_noDigit (hd : ∀ c ∈ d, isDigit c = true) (hr : NoDigit r) :
    (d ++ r).takeWhile isDigit = d := by
  rw [List.takeWhile_append_of_pos hd]
  cases r with
  | nil => simp
  | cons c r => simp [hr c (by simp)]

theorem dropWhile_append_of_noDigit (hd : ∀ c ∈ d, isDigit c = true) (hr : NoDigit r) :
    (d ++ r).dropWhile isDigit = r := by
  rw [List.dropWhile_append_of_pos hd]
  cases r with
  | nil => rfl
  | cons c r => simp [hr c (by simp)]

theorem someDigits_complete (h : Rfc8259.Digits d) (hr : NoDigit r) :
    someDigits (d ++ r) = .ok (d, r) := by
  rw [someDigits, takeWhile_append_of_noDigit h.2 hr, dropWhile_append_of_noDigit h.2 hr,
    if_neg h.1]

/-! ## numbers -/

/-- The integer part of a number, on characters. -/
def intPart : Str → Except Fault (Str × Str)
  | [] => .error ⟨.unexpectedEof, []⟩
  | c :: s =>
    if c = '0' then
      if s.head?.any isDigit then .error ⟨.invalidNumber, s⟩ else .ok (['0'], s)
    else if isDigit c then .ok ((c :: s).takeWhile isDigit, (c :: s).dropWhile isDigit)
    else .error ⟨.invalidNumber, c :: s⟩

/-- The fraction of a number, on characters. -/
def fracPart : Str → Except Fault (Str × Str)
  | [] => .ok ([], [])
  | c :: s => if c = '.' then prepend ['.'] (someDigits s) else .ok ([], c :: s)

/-- The digits of an exponent with their sign, on characters. -/
def expDigits : Str → Except Fault (Str × Str)
  | [] => someDigits []
  | c :: s => if c = '+' ∨ c = '-' then prepend [c] (someDigits s) else someDigits (c :: s)

/-- The exponent of a number, on characters. -/
def expPart : Str → Except Fault (Str × Str)
  | [] => .ok ([], [])
  | c :: s => if c = 'e' ∨ c = 'E' then prepend [c] (expDigits s) else .ok ([], c :: s)

/-- A number without its sign, on characters. -/
def unsigned : Str → Except Fault (Str × Str) := andThen intPart (andThen fracPart expPart)

/-- `scan_number` on characters. -/
def number : Str → Except Fault (Str × Str)
  | [] => unsigned []
  | c :: s => if c = '-' then prepend ['-'] (unsigned s) else unsigned (c :: s)

theorem intPart_sound (h : intPart s = .ok (i, r)) : Rfc8259.IntPart i ∧ s = i ++ r := by
  revert h
  fun_cases intPart s with
  | case3 => intro h; cases h; exact ⟨.inl rfl, by simp⟩
  | case4 c s hc hd =>
    intro h
    cases h
    refine ⟨.inr ⟨c, s.takeWhile isDigit, ?_, List.all_eq_true.mp List.all_takeWhile, ?_⟩,
      List.takeWhile_append_dropWhile.symm⟩
    · -- A digit other than zero is one of `digit1-9`.
      simp only [isDigit, isDigit19, Bool.and_eq_true, decide_eq_true_eq] at hd ⊢
      refine ⟨?_, hd.2⟩
      have h0 : c.toNat ≠ '0'.toNat := fun h => hc (Char.toNat_inj.mp h)
      have h1 : '0'.toNat ≤ c.toNat := hd.1
      exact Nat.lt_of_le_of_ne h1 (Ne.symm h0)
    · rw [List.takeWhile_cons, if_pos hd]
  | _ => intro h; cases h

theorem any_head_digit (s : Str) : (head s).any isAsciiDigit = s.head?.any isDigit := by
  cases s with
  | nil => rfl
  | cons c s => simp [byteClass_digit.lead]

theorem computes_intPart : Computes scanInt intPart where
  eq pre s := by
    cases s with
    | nil =>
      rw [scanInt, getElem?_len, intPart, located_error_append]
      rfl
    | cons c s =>
      rw [scanInt, getElem?_len, head_cons, intPart]
      simp only [byteClass_digit.lead, lead_eq_ascii_iff (show IsAscii '0' by decide)]
      by_cases h0 : c = '0'
      · subst h0
        have hnext : len pre + 1 = len (pre ++ ['0']) := by simp; rfl
        simp only [if_true, getElem?_len_succ pre s (show IsAscii '0' by decide), any_head_digit]
        rw [List.append_cons pre '0' s, hnext]
        split
        · rw [located_error_append]
        · rw [located_ok_append]
      · rw [if_neg h0, if_neg h0]
        split
        · rw [located_digits, skipDigits_eq]
        · rw [located_error_append]
  splits h := (intPart_sound h).2

theorem fracPart_sound (h : fracPart s = .ok (f, r)) : Rfc8259.FracPart f ∧ s = f ++ r := by
  revert h
  fun_cases fracPart s with
  | case2 s =>
    intro h
    obtain ⟨d, hd, rfl⟩ := prepend_eq_ok h
    obtain ⟨hdig, rfl⟩ := someDigits_sound hd
    exact ⟨.inr ⟨d, hdig, rfl⟩, rfl⟩
  | _ => intro h; cases h; exact ⟨.inl rfl, rfl⟩

theorem expDigits_sound (h : expDigits s = .ok (e, r)) :
    ∃ sg d, Rfc8259.ExpSign sg ∧ Rfc8259.Digits d ∧ e = sg ++ d ∧ s = e ++ r := by
  revert h
  fun_cases expDigits s with
  | case2 c s hc =>
    intro h
    obtain ⟨d, hd, rfl⟩ := prepend_eq_ok h
    obtain ⟨hdig, rfl⟩ := someDigits_sound hd
    refine ⟨[c], d, ?_, hdig, rfl, rfl⟩
    rcases hc with rfl | rfl
    · exact .inr (.inr rfl)
    · exact .inr (.inl rfl)
  | _ =>
    intro h
    obtain ⟨hdig, hs⟩ := someDigits_sound h
    exact ⟨[], e, .inl rfl, hdig, rfl, hs⟩

theorem expPart_sound (h : expPart s = .ok (e, r)) : Rfc8259.ExpPart e ∧ s = e ++ r := by
  revert h
  fun_cases expPart s with
  | case2 c s hc =>
    intro h
    obtain ⟨d, hd, rfl⟩ := prepend_eq_ok h
    obtain ⟨sg, ds, hsg, hds, rfl, rfl⟩ := expDigits_sound hd
    exact ⟨.inr ⟨c, sg, ds, hc, hsg, hds, rfl⟩, rfl⟩
  | _ => intro h; cases h; exact ⟨.inl rfl, rfl⟩

theorem computes_fracPart : Computes scanFrac fracPart where
  eq pre s := by
    rw [scanFrac, getElem?_len]
    cases s with
    | nil => rw [fracPart, located_ok_append]; rfl
    | cons c s =>
      simp only [head_cons, Option.some.injEq, fracPart,
        lead_eq_ascii_iff (show IsAscii '.' by decide)]
      split
      · next h => subst h; exact computes_someDigits.after (by decide) pre s
      · rw [located_ok_append]
  splits h := (fracPart_sound h).2

/-- The end of `scanExp`, from the byte after the exponent character. -/
theorem computes_expDigits : Computes (fun bs cursor =>
      if bs[cursor]? = some (ascii '+') ∨ bs[cursor]? = some (ascii '-') then
        scanSomeDigits bs (cursor + 1)
      else scanSomeDigits bs cursor) expDigits where
  eq pre s := by
    rw [getElem?_len]
    cases s with
    | nil => simpa [expDigits] using computes_someDigits.eq pre []
    | cons c s =>
      simp only [head_cons, Option.some.injEq, expDigits,
        lead_eq_ascii_iff (show IsAscii '+' by decide),
        lead_eq_ascii_iff (show IsAscii '-' by decide)]
      split
      · next h =>
        have hc : IsAscii c := by rcases h with rfl | rfl <;> decide
        exact computes_someDigits.after hc pre s
      · exact computes_someDigits.eq pre (c :: s)
  splits h := by
    obtain ⟨_, _, _, _, _, hs⟩ := expDigits_sound h
    exact hs

theorem computes_expPart : Computes scanExp expPart where
  eq pre s := by
    rw [scanExp, getElem?_len]
    cases s with
    | nil => rw [expPart, located_ok_append]; simp
    | cons c s =>
      simp only [head_cons, Option.some.injEq, expPart,
        lead_eq_ascii_iff (show IsAscii 'e' by decide),
        lead_eq_ascii_iff (show IsAscii 'E' by decide)]
      split
      · next h =>
        have hc : IsAscii c := by rcases h with rfl | rfl <;> decide
        exact computes_expDigits.after hc pre s
      · rw [located_ok_append]
  splits h := (expPart_sound h).2

theorem computes_unsigned :
    Computes (fun bs cursor => scanInt bs cursor >>= fun c => scanFrac bs c >>= scanExp bs)
      unsigned :=
  computes_intPart.andThen (computes_fracPart.andThen computes_expPart)

theorem computes_number : Computes scanNumberFrom number where
  eq pre s := by
    rw [scanNumberFrom, getElem?_len]
    cases s with
    | nil => exact computes_unsigned.eq pre []
    | cons c s =>
      simp only [head_cons, Option.some.injEq, number,
        lead_eq_ascii_iff (show IsAscii '-' by decide)]
      split
      · next h => subst h; exact computes_unsigned.after (by decide) pre s
      · exact computes_unsigned.eq pre (c :: s)
  splits := by
    intro s token rest h
    revert h
    fun_cases number s with
    | case2 s =>
      intro h
      obtain ⟨t, ht, rfl⟩ := prepend_eq_ok h
      rw [computes_unsigned.splits ht]
      rfl
    | _ => exact computes_unsigned.splits

theorem unsigned_sound (h : unsigned s = .ok (t, r)) :
    ∃ i f e, Rfc8259.IntPart i ∧ Rfc8259.FracPart f ∧ Rfc8259.ExpPart e ∧ t = i ++ (f ++ e) := by
  simp only [unsigned, andThen] at h
  split at h
  · cases h
  · next i r₁ hi =>
    obtain ⟨t₁, h₁, rfl⟩ := prepend_eq_ok h
    split at h₁
    · cases h₁
    · next f r₂ hf =>
      obtain ⟨e, he, rfl⟩ := prepend_eq_ok h₁
      exact ⟨i, f, e, (intPart_sound hi).1, (fracPart_sound hf).1, (expPart_sound he).1, rfl⟩

/-- A scanned number is a number of the grammar. -/
theorem number_sound (h : number s = .ok (t, r)) : Rfc8259.Number t := by
  revert h
  fun_cases number s with
  | case2 s =>
    intro h
    obtain ⟨u, hu, rfl⟩ := prepend_eq_ok h
    obtain ⟨i, f, e, hi, hf, he, rfl⟩ := unsigned_sound hu
    exact ⟨['-'], i, f, e, .inr rfl, hi, hf, he, rfl⟩
  | _ =>
    intro h
    obtain ⟨i, f, e, hi, hf, he, rfl⟩ := unsigned_sound h
    exact ⟨[], i, f, e, .inl rfl, hi, hf, he, rfl⟩

/-- What follows cannot be read as more of a number. -/
def NumberEnd (r : Str) : Prop :=
  ∀ c ∈ r.head?, isDigit c = false ∧ c ≠ '.' ∧ c ≠ 'e' ∧ c ≠ 'E'

theorem expDigits_complete (hsg : Rfc8259.ExpSign sg) (hd : Rfc8259.Digits d) (hr : NoDigit r) :
    expDigits (sg ++ d ++ r) = .ok (sg ++ d, r) := by
  rcases hsg with rfl | rfl | rfl
  · obtain ⟨c, d', rfl⟩ := List.exists_cons_of_ne_nil hd.1
    have hc : isDigit c = true := hd.2 c (by simp)
    have hsign : ¬ (c = '+' ∨ c = '-') := by rintro (rfl | rfl) <;> exact absurd hc (by decide)
    simp only [List.nil_append, List.cons_append, expDigits, if_neg hsign]
    exact someDigits_complete hd hr
  · simp [expDigits, someDigits_complete hd hr]
  · simp [expDigits, someDigits_complete hd hr]

theorem expPart_complete (he : Rfc8259.ExpPart e) (hr : NumberEnd r) :
    expPart (e ++ r) = .ok (e, r) := by
  rcases he with rfl | ⟨x, sg, d, hx, hsg, hd, rfl⟩
  · cases r with
    | nil => rfl
    | cons c r =>
      obtain ⟨-, -, h1, h2⟩ := hr c (by simp)
      simp [expPart, h1, h2]
  · rw [List.cons_append, expPart, if_pos hx, expDigits_complete hsg hd fun c hc => (hr c hc).1]
    rfl

/-- An exponent and what follows it start with no digit and no point. -/
theorem expPart_append_head (he : Rfc8259.ExpPart e) (hr : NumberEnd r) :
    ∀ c ∈ (e ++ r).head?, isDigit c = false ∧ c ≠ '.' := by
  rcases he with rfl | ⟨x, sg, d, hx, hsg, hd, rfl⟩
  · intro c hc
    obtain ⟨h1, h2, -⟩ := hr c hc
    exact ⟨h1, h2⟩
  · intro c hc
    obtain rfl : x = c := by simpa using hc
    rcases hx with rfl | rfl <;> decide

theorem fracPart_complete (hf : Rfc8259.FracPart f)
    (hr : ∀ c ∈ r.head?, isDigit c = false ∧ c ≠ '.') : fracPart (f ++ r) = .ok (f, r) := by
  rcases hf with rfl | ⟨d, hd, rfl⟩
  · cases r with
    | nil => rfl
    | cons c r => simp [fracPart, (hr c (by simp)).2]
  · rw [List.cons_append, fracPart, if_pos rfl, someDigits_complete hd fun c hc => (hr c hc).1]
    rfl

/-- A fraction and what follows it start with no digit. -/
theorem fracPart_append_noDigit (hf : Rfc8259.FracPart f) (hr : NoDigit r) : NoDigit (f ++ r) := by
  rcases hf with rfl | ⟨d, hd, rfl⟩
  · exact hr
  · intro c hc
    obtain rfl : '.' = c := by simpa using hc
    decide

theorem intPart_complete (hi : Rfc8259.IntPart i) (hr : NoDigit r) :
    intPart (i ++ r) = .ok (i, r) := by
  rcases hi with rfl | ⟨d, ds, hd, hds, rfl⟩
  · have hnext : r.head?.any isDigit = false := by
      cases r with
      | nil => rfl
      | cons c r => simpa using hr c (by simp)
    simp [intPart, hnext]
  · have hdig : isDigit d = true := by
      simp only [isDigit19, isDigit, Bool.and_eq_true, decide_eq_true_eq] at hd ⊢
      exact ⟨Nat.le_trans (by decide : '0'.toNat ≤ '1'.toNat) hd.1, hd.2⟩
    have hne : d ≠ '0' := by rintro rfl; exact absurd hd (by decide)
    have hall : ∀ c ∈ d :: ds, isDigit c = true := by
      intro c hc
      rcases List.mem_cons.mp hc with rfl | h
      · exact hdig
      · exact hds c h
    rw [List.cons_append, intPart, if_neg hne, if_pos hdig, ← List.cons_append,
      takeWhile_append_of_noDigit hall hr, dropWhile_append_of_noDigit hall hr]

/-- A number of the grammar is scanned whole. -/
theorem number_complete (ht : Rfc8259.Number t) (hr : NumberEnd r) :
    number (t ++ r) = .ok (t, r) := by
  obtain ⟨sg, i, f, e, hsg, hi, hf, he, rfl⟩ := ht
  have hhead := expPart_append_head he hr
  have hunsigned : unsigned (i ++ (f ++ (e ++ r))) = .ok (i ++ (f ++ e), r) := by
    have hint := intPart_complete hi (fracPart_append_noDigit hf fun c hc => (hhead c hc).1)
    simp only [unsigned, andThen, hint, fracPart_complete hf hhead, expPart_complete he hr,
      prepend_ok]
  rcases hsg with rfl | rfl
  · rcases hi with rfl | ⟨d, ds, hd, hds, rfl⟩
    · simpa [number] using hunsigned
    · have hne : d ≠ '-' := by rintro rfl; exact absurd hd (by decide)
      simpa [number, hne] using hunsigned
  · simp [number, hunsigned]

/-! ## strings -/

/-- `scan_string` on characters, from the character after the opening quote:
the body, and what follows the closing quote. -/
def stringBody : Str → Except Fault (Str × Str)
  | [] => .error ⟨.unterminatedString, []⟩
  | c :: s =>
    if c = '"' then .ok ([], s)
    else if c = '\\' then
      match s with
      | [] => .error ⟨.unterminatedString, []⟩
      | e :: s =>
        if isSimpleEscape e then prepend [c, e] (stringBody s)
        else if e = 'u' then
          match s with
          | h₁ :: h₂ :: h₃ :: h₄ :: s =>
            if isHexDigit h₁ && isHexDigit h₂ && isHexDigit h₃ && isHexDigit h₄ then
              prepend [c, e, h₁, h₂, h₃, h₄] (stringBody s)
            else .error ⟨.invalidEscape, c :: e :: h₁ :: h₂ :: h₃ :: h₄ :: s⟩
          | s => .error ⟨.invalidEscape, c :: e :: s⟩
        else .error ⟨.invalidEscape, c :: e :: s⟩
    else if c.toNat < 0x20 then .error ⟨.controlCharacter, c :: s⟩
    else prepend [c] (stringBody s)

/-- What the scan leaves as it is the grammar calls unescaped. -/
theorem isUnescaped_of (hq : c ≠ '"') (hb : c ≠ '\\') (hc : ¬ c.toNat < 0x20) :
    isUnescaped c = true := by
  simp [isUnescaped, hq, hb, Nat.not_lt.mp hc]

/-- A scanned body is a body of the grammar, up to its closing quote. -/
theorem stringBody_sound (h : stringBody s = .ok (b, r)) : Rfc8259.Chars b ∧ s = b ++ '"' :: r := by
  fun_induction stringBody s generalizing b with
  | case2 => cases h; exact ⟨.nil, rfl⟩
  | case4 e s he _ ih =>
    obtain ⟨b', hb, rfl⟩ := prepend_eq_ok h
    obtain ⟨hchars, rfl⟩ := ih hb
    exact ⟨.simple he hchars, rfl⟩
  | case5 h₁ h₂ h₃ h₄ s hhex _ _ ih =>
    obtain ⟨b', hb, rfl⟩ := prepend_eq_ok h
    obtain ⟨hchars, rfl⟩ := ih hb
    simp only [Bool.and_eq_true] at hhex
    obtain ⟨⟨⟨hh₁, hh₂⟩, hh₃⟩, hh₄⟩ := hhex
    exact ⟨.unicode hh₁ hh₂ hh₃ hh₄ hchars, rfl⟩
  | case10 c s hq hb hc ih =>
    obtain ⟨b', hb', rfl⟩ := prepend_eq_ok h
    obtain ⟨hchars, rfl⟩ := ih hb'
    exact ⟨.unescaped (isUnescaped_of hq hb hc) hchars, rfl⟩
  | _ => cases h

theorem stringBody_quote (s : Str) : stringBody ('"' :: s) = .ok ([], s) := by
  rw [stringBody.eq_def]
  rfl

theorem stringBody_unescaped (hc : isUnescaped c = true) (s : Str) :
    stringBody (c :: s) = prepend [c] (stringBody s) := by
  simp only [isUnescaped, Bool.and_eq_true, decide_eq_true_eq, ne_eq] at hc
  obtain ⟨⟨hlow, hq⟩, hs⟩ := hc
  rw [stringBody.eq_def]
  simp only [if_neg hq, if_neg hs, if_neg (Nat.not_lt.mpr hlow)]

theorem stringBody_simple (he : isSimpleEscape e = true) (s : Str) :
    stringBody ('\\' :: e :: s) = prepend ['\\', e] (stringBody s) := by
  rw [stringBody.eq_def]
  simp [he]

theorem stringBody_unicode (hh₁ : isHexDigit h₁ = true) (hh₂ : isHexDigit h₂ = true)
    (hh₃ : isHexDigit h₃ = true) (hh₄ : isHexDigit h₄ = true) (s : Str) :
    stringBody ('\\' :: 'u' :: h₁ :: h₂ :: h₃ :: h₄ :: s) =
      prepend ['\\', 'u', h₁, h₂, h₃, h₄] (stringBody s) := by
  rw [stringBody.eq_def]
  simp [show isSimpleEscape 'u' = false by decide, hh₁, hh₂, hh₃, hh₄]

/-- A body of the grammar is scanned whole. -/
theorem stringBody_complete (hb : Rfc8259.Chars b) (r : Str) :
    stringBody (b ++ '"' :: r) = .ok (b, r) := by
  induction hb with
  | nil => exact stringBody_quote r
  | unescaped hc _ ih => rw [List.cons_append, stringBody_unescaped hc, ih]; rfl
  | simple he _ ih => rw [List.cons_append, List.cons_append, stringBody_simple he, ih]; rfl
  | unicode h₁ h₂ h₃ h₄ _ ih =>
    simp only [List.cons_append]
    rw [stringBody_unicode h₁ h₂ h₃ h₄, ih]
    rfl

/-! ### the byte loops of `scan_string` -/

/-- The bytes that end the inner loop of `scan_string`. -/
def IsSpecial (byte : UInt8) : Prop := byte = ascii '"' ∨ byte = ascii '\\' ∨ byte < 0x20

theorem skipOrdinary_of_isSpecial (h : bs[k]? = some x) (hx : IsSpecial x) :
    skipOrdinary bs k = k := by
  rw [skipOrdinary]
  split
  · rfl
  · next y hy =>
    rw [h] at hy
    cases hy
    exact if_pos hx

theorem skipOrdinary_of_none (h : bs[k]? = none) : skipOrdinary bs k = k := by
  rw [skipOrdinary]
  split
  · rfl
  · next y hy => rw [h] at hy; cases hy

/-- The inner loop runs over bytes that are not special. -/
theorem skipOrdinary_eq_add (n : Nat) (h : ∀ i < n, ∃ x, bs[k + i]? = some x ∧ ¬ IsSpecial x) :
    skipOrdinary bs k = skipOrdinary bs (k + n) := by
  induction n generalizing k with
  | zero => rfl
  | succ n ih =>
    obtain ⟨x, hx, hns⟩ := h 0 (Nat.succ_pos n)
    have hstep : skipOrdinary bs k = skipOrdinary bs (k + 1) := by
      rw [skipOrdinary]
      split
      · next hy => rw [Nat.add_zero] at hx; rw [hx] at hy; cases hy
      · next y hy =>
        rw [Nat.add_zero] at hx
        rw [hx] at hy
        cases hy
        exact if_neg hns
    have hrest : ∀ i < n, ∃ x, bs[k + 1 + i]? = some x ∧ ¬ IsSpecial x := by
      intro i hi
      have := h (i + 1) (Nat.succ_lt_succ hi)
      rwa [Nat.add_comm i 1, ← Nat.add_assoc] at this
    rw [hstep, ih hrest, Nat.add_assoc, Nat.add_comm 1 n]

/-- The outer loop depends on the cursor only through the inner loop. -/
theorem scanBody_congr (h : skipOrdinary bs k = skipOrdinary bs k') (e : Bool) :
    scanBody bs k e = scanBody bs k' e := by
  rw [scanBody.eq_def bs k, scanBody.eq_def bs k']
  generalize skipOrdinary bs k = j at h ⊢
  subst h
  rfl

/-- Every byte of an unescaped character is ordinary. -/
theorem not_isSpecial_of_mem (hc : isUnescaped c = true) (hx : x ∈ String.utf8EncodeChar c) :
    ¬ IsSpecial x := by
  simp only [isUnescaped, Bool.and_eq_true, decide_eq_true_eq, ne_eq] at hc
  obtain ⟨⟨hlow, hq⟩, hs⟩ := hc
  have hlt : ∀ {y : UInt8}, 0x20 ≤ y.toNat → ¬ y < 0x20 := fun h hl =>
    absurd (UInt8.lt_iff_toNat_lt.mp hl) (Nat.not_lt.mpr h)
  by_cases ha : IsAscii c
  · rw [utf8EncodeChar_of_isAscii ha, List.mem_singleton] at hx
    subst hx
    rw [← lead_of_isAscii ha, IsSpecial, lead_eq_ascii_iff (by decide),
      lead_eq_ascii_iff (by decide)]
    rintro (h | h | h)
    · exact hq h
    · exact hs h
    · rw [lead_of_isAscii ha] at h
      exact hlt (by rwa [toNat_ascii ha]) h
  · have hle := le_of_mem_utf8EncodeChar ha hx
    rintro (rfl | rfl | h)
    · exact absurd hle (by decide)
    · exact absurd hle (by decide)
    · exact hlt (by omega) h

theorem skipOrdinary_unescaped (hc : isUnescaped c = true) (pre s : Str) :
    skipOrdinary (bytes (pre ++ c :: s)) (len pre) =
      skipOrdinary (bytes (pre ++ c :: s)) (len (pre ++ [c])) := by
  rw [len_append, len_cons, len_nil, Nat.add_zero]
  refine skipOrdinary_eq_add _ fun i hi => ?_
  rw [← String.length_utf8EncodeChar] at hi
  refine ⟨(String.utf8EncodeChar c)[i], ?_, not_isSpecial_of_mem hc (List.getElem_mem hi)⟩
  rw [getElem?_bytes_append, bytes_cons, List.getElem?_append_left hi, List.getElem?_eq_getElem hi]

/-- What the outer loop does at a special byte. -/
theorem scanBody_of_isSpecial (h : bs[k]? = some x) (hx : IsSpecial x) (e : Bool) :
    scanBody bs k e =
      if x = ascii '"' then .ok (k, e)
      else if x = ascii '\\' then
        match validateEscape bs k with
        | .error err => .error err
        | .ok next => scanBody bs next true
      else .error ⟨.controlCharacter, k⟩ := by
  rw [scanBody.eq_def]
  have hk := skipOrdinary_of_isSpecial h hx
  generalize skipOrdinary bs k = j at hk ⊢
  subst hk
  split
  · next hn => rw [h] at hn; cases hn
  · next y hy =>
    rw [h] at hy
    cases hy
    split
    · rfl
    · split
      · cases validateEscape bs j <;> rfl
      · rfl

/-- The escape sequences the tokenizer accepts, on characters. -/
theorem validateEscape_eq (pre s : Str) : validateEscape (bytes (pre ++ '\\' :: s)) (len pre) =
      match s with
      | [] => .error ⟨.unterminatedString, len pre + 1⟩
      | e :: s =>
        if isSimpleEscape e then .ok (len pre + 2)
        else if e = 'u' then
          if 4 ≤ s.length ∧ (s.take 4).all isHexDigit then .ok (len pre + 6)
          else .error ⟨.invalidEscape, len pre⟩
        else .error ⟨.invalidEscape, len pre⟩ := by
  rw [validateEscape, getElem?_len_succ pre s (by decide)]
  cases s with
  | nil => rfl
  | cons e s =>
    simp only [head_cons]
    have hsimple : (lead e = ascii '"' ∨ lead e = ascii '\\' ∨ lead e = ascii '/' ∨
        lead e = ascii 'b' ∨ lead e = ascii 'f' ∨ lead e = ascii 'n' ∨ lead e = ascii 'r' ∨
        lead e = ascii 't') ↔ isSimpleEscape e = true := by
      simp (disch := decide) only [lead_eq_ascii_iff]
      simp [isSimpleEscape, or_assoc]
    simp only [hsimple, lead_eq_ascii_iff (show IsAscii 'u' by decide)]
    split
    · rfl
    · split
      · next hu =>
        subst hu
        have hcut : (pre ++ ['\\', 'u']) ++ s = pre ++ '\\' :: 'u' :: s := by simp
        have hlen : len (pre ++ ['\\', 'u']) = len pre + 2 := by simp; rfl
        have hslice := slice?_append (pre ++ ['\\', 'u']) s 4
        rw [hcut, hlen] at hslice
        change slice? _ (len pre + 2) (len pre + 6) = _ at hslice
        rw [hslice]
        simp only [← byteClass_hexdigit.all_take_iff 4 s, length_bytes]
        by_cases h4 : 4 ≤ len s
        · simp only [h4, true_and, if_true]
        · simp only [h4, false_and, if_false]
      · rfl

theorem isAscii_of_isSimpleEscape (he : isSimpleEscape e = true) : IsAscii e := by
  simp only [isSimpleEscape, Bool.or_eq_true, decide_eq_true_eq] at he
  rcases he with ((((((rfl | rfl) | rfl) | rfl) | rfl) | rfl) | rfl) | rfl <;> decide

theorem scanBody_backslash (pre s : Str) (escaped : Bool) :
    scanBody (bytes (pre ++ '\\' :: s)) (len pre) escaped =
      match validateEscape (bytes (pre ++ '\\' :: s)) (len pre) with
      | .error err => .error err
      | .ok next => scanBody (bytes (pre ++ '\\' :: s)) next true := by
  have h : (bytes (pre ++ '\\' :: s))[len pre]? = some (ascii '\\') := getElem?_len _ _
  rw [scanBody_of_isSpecial h (.inr (.inl rfl)), if_neg (by decide), if_pos rfl]

/-- The result of the outer loop of `scan_string`, from the end of `pre`, for
a result of `stringBody`: the offset of the closing quote, and whether there
was an escape. -/
def bodyResult (input pre : Str) (escaped : Bool) :
    Except Fault (Str × Str) → Except Error (Nat × Bool)
  | .ok (body, _) => .ok (len (pre ++ body), escaped || decide ('\\' ∈ body))
  | .error f => .error (f.error input)

theorem bodyResult_prepend (input pre text : Str) (escaped : Bool) (r : Except Fault (Str × Str)) :
    bodyResult input pre escaped (prepend text r) =
      bodyResult input (pre ++ text) (escaped || decide ('\\' ∈ text)) r := by
  cases r with
  | error f => rfl
  | ok p => simp [bodyResult, prepend, Bool.or_assoc, Bool.decide_or]

theorem bodyResult_error_append (pre rest : Str) (escaped : Bool) (kind : ErrorKind) :
    bodyResult (pre ++ rest) pre escaped (.error ⟨kind, rest⟩) = .error ⟨kind, len pre⟩ := by
  rw [bodyResult, Fault.error, offsetOf_append]

/-- A `\u` escape is six bytes long. -/
theorem len_unicode (hh₁ : isHexDigit h₁ = true) (hh₂ : isHexDigit h₂ = true)
    (hh₃ : isHexDigit h₃ = true) (hh₄ : isHexDigit h₄ = true) (s : Str) :
    len ('\\' :: 'u' :: h₁ :: h₂ :: h₃ :: h₄ :: s) = 6 + len s := by
  simp only [len_cons, utf8Size_of_isAscii (byteClass_hexdigit.isAscii hh₁),
    utf8Size_of_isAscii (byteClass_hexdigit.isAscii hh₂),
    utf8Size_of_isAscii (byteClass_hexdigit.isAscii hh₃),
    utf8Size_of_isAscii (byteClass_hexdigit.isAscii hh₄),
    utf8Size_of_isAscii (show IsAscii '\\' by decide),
    utf8Size_of_isAscii (show IsAscii 'u' by decide)]
  omega

/-- The outer loop of `scan_string` computes `stringBody`. -/
theorem scanBody_eq (pre s : Str) (escaped : Bool) : scanBody (bytes (pre ++ s)) (len pre) escaped =
      bodyResult (pre ++ s) pre escaped (stringBody s) := by
  fun_induction stringBody s generalizing pre escaped with
  | case1 =>
    have h : (bytes (pre ++ []))[len pre]? = none := getElem?_len _ _
    rw [scanBody.eq_def, skipOrdinary_of_none h]
    split
    · rw [bodyResult_error_append]
    · next y hy => rw [h] at hy; cases hy
  | case2 s =>
    have h : (bytes (pre ++ '"' :: s))[len pre]? = some (ascii '"') := getElem?_len _ _
    rw [scanBody_of_isSpecial h (.inl rfl), if_pos rfl]
    simp [bodyResult]
  | case3 =>
    have hlen : len pre + 1 = len (pre ++ ['\\']) := by simp; rfl
    have herr := bodyResult_error_append (pre ++ ['\\']) [] escaped .unterminatedString
    rw [List.append_nil] at herr
    rw [scanBody_backslash, validateEscape_eq]
    simp only [hlen]
    exact herr.symm
  | case4 e s he _ ih =>
    have hlen : len pre + 2 = len (pre ++ ['\\', e]) := by
      simp [utf8Size_of_isAscii (isAscii_of_isSimpleEscape he)]
      rfl
    rw [scanBody_backslash, validateEscape_eq, bodyResult_prepend]
    simp only [he, if_true, hlen]
    simpa using ih (pre ++ ['\\', e]) true
  | case5 h₁ h₂ h₃ h₄ s hhex _ hu ih =>
    have hall : 4 ≤ (h₁ :: h₂ :: h₃ :: h₄ :: s).length ∧
        ((h₁ :: h₂ :: h₃ :: h₄ :: s).take 4).all isHexDigit = true := by
      refine ⟨by simp, ?_⟩
      simpa [Bool.and_assoc] using hhex
    have hlen : len pre + 6 = len (pre ++ ['\\', 'u', h₁, h₂, h₃, h₄]) := by
      simp only [Bool.and_eq_true] at hhex
      obtain ⟨⟨⟨hh₁, hh₂⟩, hh₃⟩, hh₄⟩ := hhex
      rw [len_append, len_unicode hh₁ hh₂ hh₃ hh₄, len_nil]
    rw [scanBody_backslash, validateEscape_eq, bodyResult_prepend]
    simp only [if_neg hu, if_true, if_pos hall, hlen]
    simpa using ih (pre ++ ['\\', 'u', h₁, h₂, h₃, h₄]) true
  | case6 h₁ h₂ h₃ h₄ s hhex _ hu =>
    have hnot : ¬ (4 ≤ (h₁ :: h₂ :: h₃ :: h₄ :: s).length ∧
        ((h₁ :: h₂ :: h₃ :: h₄ :: s).take 4).all isHexDigit = true) := by
      rintro ⟨-, hall⟩
      exact hhex (by simpa [Bool.and_assoc] using hall)
    rw [scanBody_backslash, validateEscape_eq, bodyResult_error_append]
    simp only [if_neg hu, if_true, if_neg hnot]
  | case7 s hs _ hu =>
    have hnot : ¬ (4 ≤ s.length ∧ (s.take 4).all isHexDigit = true) := by
      rintro ⟨hlen, -⟩
      rcases s with _ | ⟨h₁, _ | ⟨h₂, _ | ⟨h₃, _ | ⟨h₄, s⟩⟩⟩⟩
      iterate 4 simp at hlen
      exact hs h₁ h₂ h₃ h₄ s rfl
    rw [scanBody_backslash, validateEscape_eq, bodyResult_error_append]
    simp only [if_neg hu, if_true, if_neg hnot]
  | case8 e s he hu =>
    rw [scanBody_backslash, validateEscape_eq, bodyResult_error_append]
    simp only [he, hu, if_false]
    rfl
  | case9 c s hq hb hc =>
    have ha : IsAscii c := Nat.lt_trans hc (by decide)
    have h : (bytes (pre ++ c :: s))[len pre]? = some (lead c) := by
      rw [getElem?_len, head_cons]
    have hctl : lead c < 0x20 := by
      rw [lead_of_isAscii ha, UInt8.lt_iff_toNat_lt, toNat_ascii ha]
      exact hc
    rw [scanBody_of_isSpecial h (.inr (.inr hctl)), bodyResult_error_append,
      if_neg (mt (lead_eq_ascii_iff (by decide)).mp hq),
      if_neg (mt (lead_eq_ascii_iff (by decide)).mp hb)]
  | case10 c s hq hb hc ih =>
    have hesc : (escaped || decide ('\\' ∈ [c])) = escaped := by
      simp [Ne.symm hb]
    rw [scanBody_congr (skipOrdinary_unescaped (isUnescaped_of hq hb hc) pre s), bodyResult_prepend, hesc,
      List.append_cons]
    exact ih _ _

/-! ## keywords -/

/-- `scan_literal` on characters. -/
def literal (word s : Str) : Except Fault (Str × Str) :=
  if len word ≤ len s then
    if word <+: s then .ok (word, s.drop word.length) else .error ⟨.unexpectedByte, s⟩
  else .error ⟨.unexpectedEof, s⟩

theorem literal_sound (h : literal word s = .ok (t, r)) : t = word ∧ s = word ++ r := by
  rw [literal] at h
  split at h
  · split at h
    · next hp =>
      cases h
      obtain ⟨r, rfl⟩ := hp
      simp
    · cases h
  · cases h

theorem literal_complete (word r : Str) : literal word (word ++ r) = .ok (word, r) := by
  simp [literal]

end Kimojio.Json
