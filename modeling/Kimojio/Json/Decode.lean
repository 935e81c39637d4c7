import Kimojio.Json.Resume

/-!
# Kimojio.Json.Decode

The decoder of `Kimojio.Json.EscapeString` against the value of a string in
RFC 8259.

The tokenizer and the decoder read an escape sequence in two independent
passes: the tokenizer only validates it, the decoder only interprets it. What
ties them together is the grammar: every body the tokenizer delivers is a
body of the grammar (`chars_of_delivered`), and on those the decoder yields
the value of the body, or stops at the first unpaired surrogate
(`items_of_decodes`, `items_of_breaksAt`).
-/

namespace Kimojio.Json

open Rfc8259
open Str

namespace Unescape

/-! ## one item -/

theorem ne_backslash (hc : isUnescaped c = true) : c ≠ '\\' := by
  rintro rfl
  exact absurd hc (by decide)

theorem len_simple (he : isSimpleEscape e = true) (s : Str) : len ('\\' :: e :: s) = 2 + len s := by
  rw [len_cons, len_cons, utf8Size_of_isAscii (isAscii_of_isSimpleEscape he),
    utf8Size_of_isAscii (show IsAscii '\\' by decide)]
  omega

theorem advance_append (pre s : Str) (offset : Nat) :
    advance ⟨pre ++ s, offset⟩ (len pre) = ⟨s, offset + len pre⟩ := by
  rw [advance, getFrom?_append]
  rfl

theorem next_unescaped (hc : c ≠ '\\') (s : Str) (offset : Nat) :
    next ⟨c :: s, offset⟩ = (some (.ok c), ⟨s, offset + c.utf8Size⟩) := by
  have hadv := advance_append [c] s offset
  rw [len_cons, len_nil, Nat.add_zero, List.singleton_append] at hadv
  simp only [next, step, if_pos hc, hadv]

theorem simpleEscape_eq (he : isSimpleEscape e = true) :
    simpleEscape (ascii e) = some (simpleValue e) ∧ ascii e ≠ ascii 'u' := by
  simp only [isSimpleEscape, Bool.or_eq_true, decide_eq_true_eq] at he
  rcases he with ((((((rfl | rfl) | rfl) | rfl) | rfl) | rfl) | rfl) | rfl <;> decide

theorem next_simple (he : isSimpleEscape e = true) (s : Str) (offset : Nat) :
    next ⟨'\\' :: e :: s, offset⟩ = (some (.ok (simpleValue e)), ⟨s, offset + 2⟩) := by
  obtain ⟨hvalue, hu⟩ := simpleEscape_eq he
  have hascii := isAscii_of_isSimpleEscape he
  have hbyte : (bytes ('\\' :: e :: s))[1]? = some (ascii e) := by
    have := getElem?_len_succ [] (e :: s) (show IsAscii '\\' by decide)
    rw [List.nil_append, head_cons, lead_of_isAscii hascii] at this
    exact this
  have hadv := advance_append ['\\', e] s offset
  rw [len_simple he, len_nil, Nat.add_zero] at hadv
  simp only [next, step, ne_eq, not_true_eq_false, if_false, hbyte, if_neg hu, hvalue]
  exact congrArg _ hadv

/-! ## `\u` escapes -/

theorem nibble_eq (hh : isHexDigit h = true) :
    nibble (ascii h) = some (hexDigitValue h) ∧ hexDigitValue h < 16 := by
  have hall : ∀ n < 128, isHexDigit (Char.ofNat n) = true →
      nibble (ascii (Char.ofNat n)) = some (hexDigitValue (Char.ofNat n)) ∧
        hexDigitValue (Char.ofNat n) < 16 := by decide
  have := hall h.toNat (byteClass_hexdigit.isAscii hh)
  rw [Char.ofNat_toNat] at this
  exact this hh

section
variable (hh₁ : isHexDigit h₁ = true) (hh₂ : isHexDigit h₂ = true) (hh₃ : isHexDigit h₃ = true)
  (hh₄ : isHexDigit h₄ = true)
include hh₁ hh₂ hh₃ hh₄

/-- The digits of a `\u` escape, at any position of the body. -/
theorem hex4_eq (pre s : Str) (offset : Nat) :
    hex4 ⟨pre ++ h₁ :: h₂ :: h₃ :: h₄ :: s, offset⟩ (len pre) = .ok (unitValue h₁ h₂ h₃ h₄) := by
  have ha₁ := byteClass_hexdigit.isAscii hh₁
  have ha₂ := byteClass_hexdigit.isAscii hh₂
  have ha₃ := byteClass_hexdigit.isAscii hh₃
  have ha₄ := byteClass_hexdigit.isAscii hh₄
  have hbytes : bytes (h₁ :: h₂ :: h₃ :: h₄ :: s) =
      ascii h₁ :: ascii h₂ :: ascii h₃ :: ascii h₄ :: bytes s := by
    simp [utf8EncodeChar_of_isAscii, ha₁, ha₂, ha₃, ha₄]
  have hslice := slice?_append pre (h₁ :: h₂ :: h₃ :: h₄ :: s) 4
  rw [← length_bytes (h₁ :: h₂ :: h₃ :: h₄ :: s), hbytes, if_pos (by simp)] at hslice
  obtain ⟨hn₁, -⟩ := nibble_eq hh₁
  obtain ⟨hn₂, hlt₂⟩ := nibble_eq hh₂
  obtain ⟨hn₃, hlt₃⟩ := nibble_eq hh₃
  obtain ⟨hn₄, hlt₄⟩ := nibble_eq hh₄
  have hor : ∀ {a b : Nat}, b < 16 → a <<< 4 ||| b = a * 16 + b := by
    intro a b hb
    rw [← Nat.shiftLeft_add_eq_or_of_lt (i := 4) hb, Nat.shiftLeft_eq]
  have hvalue : hexValue [ascii h₁, ascii h₂, ascii h₃, ascii h₄] 0 =
      some (unitValue h₁ h₂ h₃ h₄) := by
    simp only [hexValue, hn₁, hn₂, hn₃, hn₄, hor hlt₂, hor hlt₃, hor hlt₄, unitValue]
    simp
  simp only [hex4, hslice, List.take_succ_cons, List.take_zero, hvalue]

theorem unitValue_lt :
    unitValue h₁ h₂ h₃ h₄ < 0x10000 := by
  have h₁' := (nibble_eq hh₁).2
  have h₂' := (nibble_eq hh₂).2
  have h₃' := (nibble_eq hh₃).2
  have h₄' := (nibble_eq hh₄).2
  simp only [unitValue]
  omega

end

theorem charFromU32_of_isValidChar (h : n.isValidChar) :
    charFromU32 n = some (Char.ofNat n) := if_pos h

/-- A `\u` escape is read by `decode_unicode_escape`. -/
theorem next_unicode (s : Str) (offset : Nat) : next ⟨'\\' :: 'u' :: s, offset⟩ =
      match decodeUnicodeEscape ⟨'\\' :: 'u' :: s, offset⟩ with
      | (.ok c, u) => (some (.ok c), u)
      | (.error e, u) => (some (.error e), { u with rest := [] }) := by
  have hbyte : (bytes ('\\' :: 'u' :: s))[1]? = some (ascii 'u') :=
    getElem?_len_succ [] _ (show IsAscii '\\' by decide)
  simp only [next, step, ne_eq, not_true_eq_false, if_false, hbyte, if_true]
  cases decodeUnicodeEscape ⟨'\\' :: 'u' :: s, offset⟩ with
  | mk r u => cases r <;> rfl

section
variable {h₁ h₂ h₃ h₄ : Char} (hh₁ : isHexDigit h₁ = true) (hh₂ : isHexDigit h₂ = true)
  (hh₃ : isHexDigit h₃ = true) (hh₄ : isHexDigit h₄ = true)
include hh₁ hh₂ hh₃ hh₄

theorem hex4_leading (s : Str) (offset : Nat) :
    hex4 ⟨'\\' :: 'u' :: h₁ :: h₂ :: h₃ :: h₄ :: s, offset⟩ 2 = .ok (unitValue h₁ h₂ h₃ h₄) :=
  hex4_eq hh₁ hh₂ hh₃ hh₄ ['\\', 'u'] s offset

theorem next_scalar (hhigh : ¬ IsHigh (unitValue h₁ h₂ h₃ h₄))
    (hlow : ¬ IsLow (unitValue h₁ h₂ h₃ h₄)) (s : Str) (offset : Nat) :
    next ⟨'\\' :: 'u' :: h₁ :: h₂ :: h₃ :: h₄ :: s, offset⟩ =
      (some (.ok (Char.ofNat (unitValue h₁ h₂ h₃ h₄))), ⟨s, offset + 6⟩) := by
  have hlt := unitValue_lt hh₁ hh₂ hh₃ hh₄
  rw [IsHigh] at hhigh
  rw [IsLow] at hlow
  have hvalid : (unitValue h₁ h₂ h₃ h₄).isValidChar := by
    omega
  have hadv := advance_append ['\\', 'u', h₁, h₂, h₃, h₄] s offset
  rw [len_unicode hh₁ hh₂ hh₃ hh₄] at hadv
  simp only [next_unicode, decodeUnicodeEscape, hex4_leading hh₁ hh₂ hh₃ hh₄, if_neg hhigh,
    if_neg hlow, charFromU32_of_isValidChar hvalid]
  exact congrArg _ hadv

theorem next_low (hlow : IsLow (unitValue h₁ h₂ h₃ h₄)) (s : Str) (offset : Nat) :
    (next ⟨'\\' :: 'u' :: h₁ :: h₂ :: h₃ :: h₄ :: s, offset⟩) =
      (some (.error ⟨.loneSurrogate, offset⟩), ⟨[], offset⟩) := by
  rw [IsLow] at hlow
  have hhigh : ¬ (0xD800 ≤ unitValue h₁ h₂ h₃ h₄ ∧ unitValue h₁ h₂ h₃ h₄ < 0xDC00) := by omega
  simp only [next_unicode, decodeUnicodeEscape, hex4_leading hh₁ hh₂ hh₃ hh₄, if_neg hhigh,
    if_pos hlow]

/-- The check for a second escape looks at the text after the first. -/
theorem slice?_trailing (s : Str) : slice? (bytes ('\\' :: 'u' :: h₁ :: h₂ :: h₃ :: h₄ :: s)) 6 8 =
      some [ascii '\\', ascii 'u'] ↔ ['\\', 'u'] <+: s := by
  have h := slice?_eq_word_iff (isAscii_of_all (w := ['\\', 'u']) (by decide))
    ['\\', 'u', h₁, h₂, h₃, h₄] s
  rw [len_unicode hh₁ hh₂ hh₃ hh₄] at h
  exact h

theorem next_high_alone (hhigh : IsHigh (unitValue h₁ h₂ h₃ h₄)) (hs : ¬ ['\\', 'u'] <+: s)
    (offset : Nat) :
    next ⟨'\\' :: 'u' :: h₁ :: h₂ :: h₃ :: h₄ :: s, offset⟩ =
      (some (.error ⟨.loneSurrogate, offset⟩), ⟨[], offset⟩) := by
  rw [IsHigh] at hhigh
  have hslice := mt (slice?_trailing hh₁ hh₂ hh₃ hh₄ s).mp hs
  simp only [next_unicode, decodeUnicodeEscape, hex4_leading hh₁ hh₂ hh₃ hh₄, if_pos hhigh, ne_eq,
    hslice, not_false_eq_true, if_true]

section
variable {g₁ g₂ g₃ g₄ : Char} (hg₁ : isHexDigit g₁ = true) (hg₂ : isHexDigit g₂ = true)
  (hg₃ : isHexDigit g₃ = true) (hg₄ : isHexDigit g₄ = true)
include hg₁ hg₂ hg₃ hg₄

theorem hex4_trailing (s : Str) (offset : Nat) :
    hex4 ⟨'\\' :: 'u' :: h₁ :: h₂ :: h₃ :: h₄ :: '\\' :: 'u' :: g₁ :: g₂ :: g₃ :: g₄ :: s,
      offset⟩ 8 =
      .ok (unitValue g₁ g₂ g₃ g₄) := by
  have h := hex4_eq hg₁ hg₂ hg₃ hg₄ ['\\', 'u', h₁, h₂, h₃, h₄, '\\', 'u'] s offset
  rw [len_unicode hh₁ hh₂ hh₃ hh₄] at h
  exact h

/-- A high surrogate with a second escape that is no low surrogate. -/
theorem next_high_other (hhigh : IsHigh (unitValue h₁ h₂ h₃ h₄))
    (hlow : ¬ IsLow (unitValue g₁ g₂ g₃ g₄)) (s : Str) (offset : Nat) :
    next ⟨'\\' :: 'u' :: h₁ :: h₂ :: h₃ :: h₄ :: '\\' :: 'u' :: g₁ :: g₂ :: g₃ :: g₄ :: s, offset⟩ =
      (some (.error ⟨.loneSurrogate, offset⟩), ⟨[], offset⟩) := by
  rw [IsHigh] at hhigh
  rw [IsLow] at hlow
  have hslice := (slice?_trailing hh₁ hh₂ hh₃ hh₄ ('\\' :: 'u' :: g₁ :: g₂ :: g₃ :: g₄ :: s)).mpr
    ⟨_, rfl⟩
  simp only [next_unicode, decodeUnicodeEscape, hex4_leading hh₁ hh₂ hh₃ hh₄, if_pos hhigh, ne_eq,
    hslice, not_true_eq_false, if_false, hex4_trailing hh₁ hh₂ hh₃ hh₄ hg₁ hg₂ hg₃ hg₄, hlow,
    not_false_eq_true, if_true]

theorem next_pair (hhigh : IsHigh (unitValue h₁ h₂ h₃ h₄))
    (hlow : IsLow (unitValue g₁ g₂ g₃ g₄)) (s : Str) (offset : Nat) :
    next ⟨'\\' :: 'u' :: h₁ :: h₂ :: h₃ :: h₄ :: '\\' :: 'u' :: g₁ :: g₂ :: g₃ :: g₄ :: s, offset⟩ =
      (some (.ok (pairValue (unitValue h₁ h₂ h₃ h₄) (unitValue g₁ g₂ g₃ g₄))),
        ⟨s, offset + 12⟩) := by
  rw [IsHigh] at hhigh
  rw [IsLow] at hlow
  have hslice := (slice?_trailing hh₁ hh₂ hh₃ hh₄ ('\\' :: 'u' :: g₁ :: g₂ :: g₃ :: g₄ :: s)).mpr
    ⟨_, rfl⟩
  have hvalid : (0x10000 + (unitValue h₁ h₂ h₃ h₄ - 0xD800) * 0x400 +
      (unitValue g₁ g₂ g₃ g₄ - 0xDC00)).isValidChar := by
    omega
  have hadv := advance_append ['\\', 'u', h₁, h₂, h₃, h₄, '\\', 'u', g₁, g₂, g₃, g₄] s offset
  rw [len_unicode hh₁ hh₂ hh₃ hh₄, len_unicode hg₁ hg₂ hg₃ hg₄] at hadv
  simp only [next_unicode, decodeUnicodeEscape, hex4_leading hh₁ hh₂ hh₃ hh₄, if_pos hhigh, ne_eq,
    hslice, not_true_eq_false, if_false, hex4_trailing hh₁ hh₂ hh₃ hh₄ hg₁ hg₂ hg₃ hg₄, hlow,
    and_self, Nat.shiftLeft_eq, Nat.reducePow, charFromU32_of_isValidChar hvalid]
  exact congrArg _ hadv

end
end

/-! ## all items -/

theorem items_cons {u u' : Unescape} (h : u.next = (some r, u')) : u.items = r :: u'.items := by
  rw [items]
  split <;> simp_all

theorem items_nil (offset : Nat) : items ⟨[], offset⟩ = [] := by
  rw [items]
  split
  · rfl
  · next h => simp [next, step] at h

/-- Text with a value is decoded to that value. -/
theorem items_of_paired (hp : Paired ps cs) (hs : Pieces s ps) (r : Str) (offset : Nat) :
    items ⟨s ++ r, offset⟩ = cs.map .ok ++ items ⟨r, offset + len s⟩ := by
  induction hp generalizing s offset with
  | nil => cases hs; rfl
  | char _ ih =>
    cases hs with
    | unescaped hc hs =>
      rw [List.cons_append, items_cons (next_unescaped (ne_backslash hc) _ _), ih hs, len_cons,
        Nat.add_assoc]
      rfl
    | simple hc hs =>
      rw [List.cons_append, List.cons_append, items_cons (next_simple hc _ _), ih hs,
        len_simple hc, Nat.add_assoc]
      rfl
  | scalar hhigh hlow _ ih =>
    cases hs with
    | unicode h₁ h₂ h₃ h₄ hs =>
      simp only [List.cons_append]
      rw [items_cons (next_scalar h₁ h₂ h₃ h₄ hhigh hlow _ _), ih hs, len_unicode h₁ h₂ h₃ h₄,
        Nat.add_assoc]
      rfl
  | pair hhigh hlow _ ih =>
    cases hs with
    | unicode h₁ h₂ h₃ h₄ hs =>
      cases hs with
      | unicode g₁ g₂ g₃ g₄ hs =>
        have hoff : ∀ n, offset + (6 + (6 + n)) = offset + 12 + n := by omega
        simp only [List.cons_append]
        rw [items_cons (next_pair h₁ h₂ h₃ h₄ g₁ g₂ g₃ g₄ hhigh hlow _ _), ih hs,
          len_unicode h₁ h₂ h₃ h₄, len_unicode g₁ g₂ g₃ g₄, hoff]
        rfl

/-- At an unpaired surrogate there is one error, and nothing after it. -/
theorem items_of_startsUnpaired (hp : StartsUnpaired ps) (hs : Pieces s ps)
    (offset : Nat) : items ⟨s, offset⟩ = [.error ⟨.loneSurrogate, offset⟩] := by
  have hone : next ⟨s, offset⟩ = (some (.error ⟨.loneSurrogate, offset⟩), ⟨[], offset⟩) := by
    cases hp with
    | low hlow =>
      cases hs with
      | unicode h₁ h₂ h₃ h₄ hs => exact next_low h₁ h₂ h₃ h₄ hlow _ _
    | high hhigh hnot =>
      cases hs with
      | unicode h₁ h₂ h₃ h₄ hs =>
        cases hs with
        | nil => exact next_high_alone h₁ h₂ h₃ h₄ hhigh (by simp) _
        | unescaped hc hs =>
          refine next_high_alone h₁ h₂ h₃ h₄ hhigh ?_ _
          rintro ⟨t, ht⟩
          cases ht
          exact ne_backslash hc rfl
        | simple hc hs =>
          refine next_high_alone h₁ h₂ h₃ h₄ hhigh ?_ _
          rintro ⟨t, ht⟩
          cases ht
          exact absurd hc (by decide)
        | unicode g₁ g₂ g₃ g₄ hs =>
          exact next_high_other h₁ h₂ h₃ h₄ g₁ g₂ g₃ g₄ hhigh (hnot _ _ rfl) _ _
  rw [items_cons hone, items_nil]

end Unescape

/-! ## the decoder and the value of a body -/

/-- A body with a value is decoded to it. -/
theorem EscapeString.items_of_decodes {b : EscapeString} (h : Decodes b.raw cs) :
    b.unescape.items = cs.map .ok := by
  obtain ⟨ps, hps, hpaired⟩ := h
  have hitems := Unescape.items_of_paired hpaired hps [] 0
  rw [List.append_nil, Unescape.items_nil, List.append_nil] at hitems
  exact hitems

theorem decodes_unique (h : Decodes body cs) (h' : Decodes body cs') :
    cs = cs' := by
  have heq := (EscapeString.items_of_decodes (b := ⟨body⟩) h).symm.trans
    (EscapeString.items_of_decodes h')
  exact (List.map_inj_right fun _ _ hok => Except.ok.inj hok).mp heq

/-- A body without escapes is its own value. -/
theorem decodes_self (h : Chars body) (hb : '\\' ∉ body) : Decodes body body := by
  induction h with
  | nil => exact ⟨[], .nil, .nil⟩
  | unescaped hc _ ih =>
    obtain ⟨ps, hps, hpaired⟩ := ih (fun hmem => hb (.tail _ hmem))
    exact ⟨_, .unescaped hc hps, .char hpaired⟩
  | simple | unicode => exact absurd (.head _) hb

/-- A body that breaks is decoded up to there, with one error. -/
theorem EscapeString.items_of_breaksAt {b : EscapeString} (h : BreaksAt b.raw before cs) :
    b.unescape.items = cs.map .ok ++ [.error ⟨.loneSurrogate, len before⟩] := by
  obtain ⟨after, ps, hraw, ⟨ps₁, hps₁, hpaired⟩, hps, hun⟩ := h
  have hitems := Unescape.items_of_paired hpaired hps₁ after 0
  rw [Unescape.items_of_startsUnpaired hun hps, ← hraw, Nat.zero_add] at hitems
  exact hitems

/-! ### the decoded text is not longer -/

theorem isAscii_simpleValue (he : isSimpleEscape e = true) : IsAscii (simpleValue e) := by
  simp only [isSimpleEscape, Bool.or_eq_true, decide_eq_true_eq] at he
  rcases he with ((((((rfl | rfl) | rfl) | rfl) | rfl) | rfl) | rfl) | rfl <;> decide

/-- Decoding never makes the text longer. -/
theorem len_le_of_paired (hp : Paired ps cs) (hs : Pieces s ps) : len cs ≤ len s := by
  have hfour : ∀ c : Char, c.utf8Size ≤ 4 := Char.utf8Size_le_four
  induction hp generalizing s with
  | nil => cases hs; exact Nat.le_refl _
  | char _ ih =>
    cases hs with
    | unescaped hc hs =>
      rw [len_cons, len_cons]
      exact Nat.add_le_add_left (ih hs) _
    | simple hc hs =>
      rw [len_cons, Unescape.len_simple hc, utf8Size_of_isAscii (isAscii_simpleValue hc)]
      exact Nat.add_le_add (by decide) (ih hs)
  | scalar hhigh hlow _ ih =>
    cases hs with
    | unicode h₁ h₂ h₃ h₄ hs =>
      rw [len_cons, len_unicode h₁ h₂ h₃ h₄]
      exact Nat.add_le_add (Nat.le_trans (hfour _) (by decide)) (ih hs)
  | pair hhigh hlow _ ih =>
    cases hs with
    | unicode h₁ h₂ h₃ h₄ hs =>
      cases hs with
      | unicode g₁ g₂ g₃ g₄ hs =>
        rw [len_cons, len_unicode h₁ h₂ h₃ h₄, len_unicode g₁ g₂ g₃ g₄,
          ← Nat.add_assoc]
        exact Nat.add_le_add (Nat.le_trans (hfour _) (by decide)) (ih hs)

/-! ## the loops over the items -/

namespace EscapeString

theorem eqItems_map_ok (cs other : Str) : eqItems (cs.map .ok) other = true ↔ cs = other := by
  induction cs generalizing other with
  | nil => cases other <;> simp [eqItems]
  | cons c cs ih =>
    cases other with
    | nil => simp [eqItems]
    | cons d other =>
      by_cases h : c = d
      · simp [eqItems, h, ih]
      · simp [eqItems, h]

theorem eqItems_error (cs : Str) (e : Error) (other : Str) :
    eqItems (cs.map .ok ++ [.error e]) other = false := by
  induction cs generalizing other with
  | nil => simp [eqItems]
  | cons c cs ih =>
    cases other with
    | nil => simp [eqItems]
    | cons d other =>
      by_cases h : c = d
      · simpa [eqItems, h] using ih other
      · simp [eqItems, h]

theorem overwrite_eq (done rest bs : List UInt8) :
    (done ++ rest).take done.length ++ bs ++ (done ++ rest).drop (done.length + bs.length) =
      (done ++ bs) ++ rest.drop bs.length := by
  rw [List.take_left, ← List.drop_drop, List.drop_left]

/-- Writing characters that fit puts their bytes at the front of what was
left of the buffer. -/
theorem writeItems_map_ok (cs : Str) (items : List (Except Error Char)) (done rest : List UInt8)
    (h : len cs ≤ rest.length) :
    writeItems (cs.map .ok ++ items) done.length (done ++ rest) =
      writeItems items (done ++ bytes cs).length (done ++ bytes cs ++ rest.drop (len cs)) := by
  induction cs generalizing done rest with
  | nil => simp
  | cons c cs ih =>
    have hsize := String.length_utf8EncodeChar c
    rw [len_cons] at h
    have hfit : done.length + (String.utf8EncodeChar c).length ≤ (done ++ rest).length := by
      rw [List.length_append]
      omega
    have hnext := ih (done ++ String.utf8EncodeChar c)
      (rest.drop (String.utf8EncodeChar c).length) (by rw [List.length_drop]; omega)
    simp only [List.map_cons, List.cons_append, writeItems, if_pos hfit, overwrite_eq]
    rw [List.length_append] at hnext
    rw [hnext]
    simp [hsize]

/-- Characters that do not fit are not written past the end. -/
theorem writeItems_too_small (cs : Str) (items : List (Except Error Char)) (done rest : List UInt8)
    (h : ¬ len cs ≤ rest.length) :
    ∃ written buffer, writeItems (cs.map .ok ++ items) done.length (done ++ rest) =
      (.error ⟨.bufferTooSmall, written⟩, buffer) := by
  induction cs generalizing done rest with
  | nil => exact absurd (Nat.zero_le _) h
  | cons c cs ih =>
    have hsize := String.length_utf8EncodeChar c
    rw [len_cons] at h
    simp only [List.map_cons, List.cons_append, writeItems]
    split
    · next hfit =>
      rw [List.length_append] at hfit
      have hnext := ih (done ++ String.utf8EncodeChar c)
        (rest.drop (String.utf8EncodeChar c).length) (by rw [List.length_drop]; omega)
      rw [overwrite_eq]
      rw [List.length_append] at hnext
      exact hnext
    · exact ⟨_, _, rfl⟩

/-- Decoding a body with a value into a buffer. -/
theorem unescapeInto_of_decodes {b : EscapeString} (h : Decodes b.raw cs) (buffer : List UInt8) :
    (len cs ≤ buffer.length → (b.unescapeInto buffer).1 = some (.ok cs)) ∧
      (¬ len cs ≤ buffer.length →
        ∃ written, (b.unescapeInto buffer).1 = some (.error ⟨.bufferTooSmall, written⟩)) := by
  have hitems := items_of_decodes h
  constructor
  · intro hfit
    have hwrite := writeItems_map_ok cs [] [] buffer hfit
    have hslice : slice? (bytes cs ++ buffer.drop (len cs)) 0 (len cs) = some (bytes cs) := by
      have hle : len cs ≤ (bytes cs ++ buffer.drop (len cs)).length := by
        rw [List.length_append, length_bytes]
        omega
      simp only [slice?, Nat.zero_le, true_and, if_pos hle, List.drop_zero, Nat.sub_zero]
      rw [← length_bytes, List.take_left]
    simp only [List.append_nil, List.nil_append, List.length_nil, writeItems,
      length_bytes] at hwrite
    simp only [unescapeInto, hitems, hwrite, hslice, fromUtf8_bytes, Option.map_some]
  · intro hfit
    obtain ⟨written, buffer', hwrite⟩ := writeItems_too_small cs [] [] buffer hfit
    simp only [List.append_nil, List.nil_append, List.length_nil] at hwrite
    exact ⟨written, by simp only [unescapeInto, hitems, hwrite]⟩

/-- Decoding a body that breaks into a buffer. -/
theorem unescapeInto_of_breaksAt {b : EscapeString} (h : BreaksAt b.raw before cs)
    (buffer : List UInt8) :
    (len cs ≤ buffer.length →
        (b.unescapeInto buffer).1 = some (.error ⟨.loneSurrogate, len before⟩)) ∧
      (¬ len cs ≤ buffer.length →
        ∃ written, (b.unescapeInto buffer).1 = some (.error ⟨.bufferTooSmall, written⟩)) := by
  have hitems := items_of_breaksAt h
  constructor
  · intro hfit
    have hwrite := writeItems_map_ok cs [.error ⟨.loneSurrogate, len before⟩] [] buffer hfit
    simp only [List.nil_append, List.length_nil, writeItems] at hwrite
    simp only [unescapeInto, hitems, hwrite]
  · intro hfit
    obtain ⟨written, buffer', hwrite⟩ :=
      writeItems_too_small cs [.error ⟨.loneSurrogate, len before⟩] [] buffer hfit
    simp only [List.nil_append, List.length_nil] at hwrite
    exact ⟨written, by simp only [unescapeInto, hitems, hwrite]⟩

/-- What decoding a body gives, in all three forms. -/
structure Correct (b : EscapeString) : Prop where
  /-- The body has a value, or an unpaired surrogate. -/
  total : (∃ cs, Decodes b.raw cs) ∨ ∃ before cs, BreaksAt b.raw before cs
  /-- The iterator yields the value. -/
  decoded : ∀ cs, Decodes b.raw cs → b.unescape.items = cs.map .ok
  /-- Or it yields the value before the first unpaired surrogate, and one error. -/
  broken : ∀ before cs, BreaksAt b.raw before cs →
    b.unescape.items = cs.map .ok ++ [.error ⟨.loneSurrogate, len before⟩]
  /-- `unescape_into` succeeds exactly when there is a value and it fits. -/
  into_ok_iff : ∀ buffer cs, (b.unescapeInto buffer).1 = some (.ok cs) ↔
    Decodes b.raw cs ∧ len cs ≤ buffer.length
  /-- A buffer of `raw_len` bytes is large enough. -/
  into_rawLen : ∀ buffer : List UInt8, b.rawLen ≤ buffer.length →
    (∃ cs, Decodes b.raw cs ∧ (b.unescapeInto buffer).1 = some (.ok cs)) ∨
      ∃ before cs, BreaksAt b.raw before cs ∧
        (b.unescapeInto buffer).1 = some (.error ⟨.loneSurrogate, len before⟩)
  /-- The UTF-8 check after decoding never fails. -/
  into_ne_none : ∀ buffer, (b.unescapeInto buffer).1 ≠ none
  /-- `eq_unescaped` compares with the value. -/
  eq_iff : ∀ other, b.eqUnescaped other = true ↔ Decodes b.raw other

/-- A body of the grammar is decoded correctly. -/
theorem correct_of_chars {b : EscapeString} (h : Chars b.raw) : b.Correct where
  total := h.decodes_or_breaksAt
  decoded _ hd := items_of_decodes hd
  broken _ _ hb := items_of_breaksAt hb
  into_ok_iff buffer cs := by
    refine ⟨fun hok => ?_, fun ⟨hd, hfit⟩ => (unescapeInto_of_decodes hd buffer).1 hfit⟩
    obtain ⟨cs', hd⟩ | ⟨before, cs', hb⟩ := h.decodes_or_breaksAt
    · by_cases hfit : len cs' ≤ buffer.length
      · rw [(unescapeInto_of_decodes hd buffer).1 hfit] at hok
        cases hok
        exact ⟨hd, hfit⟩
      · obtain ⟨written, herr⟩ := (unescapeInto_of_decodes hd buffer).2 hfit
        rw [herr] at hok
        cases hok
    · by_cases hfit : len cs' ≤ buffer.length
      · rw [(unescapeInto_of_breaksAt hb buffer).1 hfit] at hok
        cases hok
      · obtain ⟨written, herr⟩ := (unescapeInto_of_breaksAt hb buffer).2 hfit
        rw [herr] at hok
        cases hok
  into_rawLen buffer hraw := by
    obtain ⟨cs, hd⟩ | ⟨before, cs, hb⟩ := h.decodes_or_breaksAt
    · obtain ⟨ps, hps, hpaired⟩ := hd
      have hfit := Nat.le_trans (len_le_of_paired hpaired hps) hraw
      exact .inl ⟨cs, ⟨ps, hps, hpaired⟩,
        (unescapeInto_of_decodes ⟨ps, hps, hpaired⟩ buffer).1 hfit⟩
    · obtain ⟨after, ps, hbody, ⟨ps₁, hps₁, hpaired⟩, -, -⟩ := id hb
      have hle : len before ≤ b.rawLen := by
        rw [rawLen, hbody, len_append]
        exact Nat.le_add_right _ _
      have hfit := Nat.le_trans (len_le_of_paired hpaired hps₁) (Nat.le_trans hle hraw)
      exact .inr ⟨before, cs, hb, (unescapeInto_of_breaksAt hb buffer).1 hfit⟩
  into_ne_none buffer hnone := by
    obtain ⟨cs, hd⟩ | ⟨before, cs, hb⟩ := h.decodes_or_breaksAt
    · obtain ⟨hok, herr⟩ := unescapeInto_of_decodes hd buffer
      by_cases hfit : len cs ≤ buffer.length
      · rw [hok hfit] at hnone; cases hnone
      · obtain ⟨written, heq⟩ := herr hfit
        rw [heq] at hnone; cases hnone
    · obtain ⟨hok, herr⟩ := unescapeInto_of_breaksAt hb buffer
      by_cases hfit : len cs ≤ buffer.length
      · rw [hok hfit] at hnone; cases hnone
      · obtain ⟨written, heq⟩ := herr hfit
        rw [heq] at hnone; cases hnone
  eq_iff other := by
    refine ⟨fun heq => ?_, fun hd => ?_⟩
    · obtain ⟨cs, hd⟩ | ⟨before, cs, hb⟩ := h.decodes_or_breaksAt
      · rw [eqUnescaped, items_of_decodes hd, eqItems_map_ok] at heq
        rw [← heq]
        exact hd
      · rw [eqUnescaped, items_of_breaksAt hb, eqItems_error] at heq
        cases heq
    · rw [eqUnescaped, items_of_decodes hd, eqItems_map_ok]

end EscapeString

/-- Every body delivered as escaped text is a body of the grammar. -/
theorem chars_of_delivered
    (h : .escapeKey b ∈ (uninterrupted input).1 ∨ .escapeString b ∈ (uninterrupted input).1) :
    Chars b.raw := by
  rw [uninterrupted_eq, (Refines.new input).trace_eq] at h
  rcases h with h | h <;> exact (Cfg.valid_of_mem_trace h).1

/-- **Decoding.** Every body that a scan delivers as an `EscapeString` is
decoded to its value in RFC 8259, or up to its first unpaired surrogate, by
the iterator, by `unescape_into` and by `eq_unescaped` alike. -/
theorem correct_of_delivered {input : Str} {b : EscapeString}
    (h : .escapeKey b ∈ (uninterrupted input).1 ∨ .escapeString b ∈ (uninterrupted input).1) :
    b.Correct :=
  EscapeString.correct_of_chars (chars_of_delivered h)

/-- The document `"\n"`, whose body decodes to a line feed. -/
theorem correct_of_delivered_lineFeed :
    .escapeString ⟨['\\', 'n']⟩ ∈ (uninterrupted ['"', '\\', 'n', '"']).1 ∧
      EscapeString.Correct ⟨['\\', 'n']⟩ := by
  have htree : JsonText (.string ['\\', 'n']) ['"', '\\', 'n', '"'] := by
    refine ⟨[], ['"', '\\', 'n', '"'], [], ws_nil, ?_, ws_nil, rfl⟩
    exact ⟨.simple (by decide) .nil, rfl⟩
  have hmem : .escapeString ⟨['\\', 'n']⟩ ∈ (uninterrupted ['"', '\\', 'n', '"']).1 := by
    rw [uninterrupted_eq, Tokenizer.trace_new htree (Nat.zero_le _)]
    simp [tokensOf, stringToken]
  exact ⟨hmem, correct_of_delivered (.inr hmem)⟩

end Kimojio.Json
