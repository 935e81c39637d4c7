/-!
# Kimojio.Text

Rust text for the parsing layer: a `str` is its sequence of Unicode scalar
values, `as_bytes` is the UTF-8 encoding of that sequence, and a byte offset
is meaningful only where it falls between two characters.

The scanners of `kimojio-json` walk bytes, while the JSON grammar is written
over characters. The lemmas here are the bridge between the two, proved
once: reading the byte at the end of a prefix is reading the first byte of
what follows, an ASCII byte is a whole character, and no byte of a longer
character is ASCII. Nothing in this module is about JSON.
-/

namespace Kimojio

/-- Rust's `str`: a sequence of Unicode scalar values. -/
abbrev Str := List Char

/-- The byte of an ASCII character, Rust's `b'c'`. -/
def ascii (c : Char) : UInt8 := UInt8.ofNat c.toNat

namespace Str

/-- `str::as_bytes`: the UTF-8 encoding. -/
def bytes (s : Str) : List UInt8 := s.flatMap String.utf8EncodeChar

/-- `str::len`: the length in bytes. -/
def len (s : Str) : Nat := s.bytes.length

/-- `str::split_at_checked`: cut the text at a byte offset, when the offset
falls between two characters. -/
def splitAt? : Str → Nat → Option (Str × Str)
  | s, 0 => some ([], s)
  | [], _ + 1 => none
  | c :: s, n + 1 =>
    if c.utf8Size ≤ n + 1 then
      (splitAt? s (n + 1 - c.utf8Size)).map fun p => (c :: p.1, p.2)
    else none

/-- `str::get(count..)`. -/
def getFrom? (s : Str) (count : Nat) : Option Str := (s.splitAt? count).map Prod.snd

/-- `str::get(start..end)`. -/
def get? (s : Str) (start stop : Nat) : Option Str :=
  if start ≤ stop then
    (s.getFrom? start).bind fun r => (r.splitAt? (stop - start)).map Prod.fst
  else none

/-- `slice::get(start..end)` on bytes. -/
def slice? (bs : List UInt8) (start stop : Nat) : Option (List UInt8) :=
  if start ≤ stop ∧ stop ≤ bs.length then some ((bs.drop start).take (stop - start)) else none

/-- `str::from_utf8`. -/
def fromUtf8 (bs : List UInt8) : Option Str := bs.toByteArray.utf8Decode?.map Array.toList

/-! ## bytes of a text -/

@[simp] theorem bytes_nil : bytes [] = [] := rfl

@[simp] theorem bytes_cons (c : Char) (s : Str) :
    bytes (c :: s) = String.utf8EncodeChar c ++ bytes s := rfl

@[simp] theorem bytes_append (s t : Str) : bytes (s ++ t) = bytes s ++ bytes t := by
  simp [bytes]

@[simp] theorem len_nil : len [] = 0 := rfl

@[simp] theorem len_cons (c : Char) (s : Str) : len (c :: s) = c.utf8Size + len s := by
  simp [len]

@[simp] theorem len_append (s t : Str) : len (s ++ t) = len s + len t := by
  simp [len]

theorem length_bytes (s : Str) : s.bytes.length = s.len := rfl

/-- A text is empty exactly when it has no bytes. -/
theorem len_eq_zero_iff (s : Str) : s.len = 0 ↔ s = [] := by
  cases s with
  | nil => simp
  | cons c s =>
    have := c.utf8Size_pos
    simp only [len_cons, reduceCtorEq, iff_false]
    omega

/-- The byte at a character boundary is a byte of what follows. -/
theorem getElem?_bytes_append (pre rest : Str) (k : Nat) :
    (bytes (pre ++ rest))[pre.len + k]? = (bytes rest)[k]? := by
  rw [bytes_append, List.getElem?_append_right (by simp [len])]
  simp [len]

/-- Slicing the bytes at a character boundary slices what follows. -/
theorem drop_bytes_append (pre rest : Str) (k : Nat) :
    (bytes (pre ++ rest)).drop (pre.len + k) = (bytes rest).drop k := by
  rw [bytes_append, ← List.drop_drop, len, List.drop_left]

theorem slice?_append (pre rest : Str) (n : Nat) :
    slice? (bytes (pre ++ rest)) pre.len (pre.len + n) =
      if n ≤ rest.len then some ((bytes rest).take n) else none := by
  have hdrop := drop_bytes_append pre rest 0
  rw [Nat.add_zero, List.drop_zero] at hdrop
  have hlen : pre.len + n ≤ (bytes (pre ++ rest)).length ↔ n ≤ rest.len := by
    rw [length_bytes, len_append]
    omega
  simp only [slice?, Nat.le_add_right, true_and, hlen, hdrop, Nat.add_sub_cancel_left]

/-- Decoding the bytes of a text gives the text back. -/
theorem fromUtf8_bytes (s : Str) : fromUtf8 s.bytes = some s := by
  have h : s.bytes.toByteArray = List.utf8Encode s := rfl
  rw [fromUtf8, h, List.utf8Decode?_utf8Encode]
  rfl

/-- Texts with the same bytes are the same text. -/
theorem bytes_inj {s t : Str} (h : s.bytes = t.bytes) : s = t := by
  have hs := fromUtf8_bytes s
  rw [h, fromUtf8_bytes] at hs
  exact (Option.some.inj hs).symm

/-! ## ASCII characters -/

/-- The characters whose encoding is their own single byte. -/
def IsAscii (c : Char) : Prop := c.toNat < 0x80

instance (c : Char) : Decidable (IsAscii c) := inferInstanceAs (Decidable (_ < _))

/-- A word of ASCII characters, by evaluation. -/
theorem isAscii_of_all {w : Str} (h : w.all (fun c => decide (IsAscii c)) = true) :
    ∀ c ∈ w, IsAscii c := by
  intro c hc
  exact of_decide_eq_true (List.all_eq_true.mp h c hc)

theorem utf8EncodeChar_of_isAscii (h : IsAscii c) : String.utf8EncodeChar c = [ascii c] := by
  have h' : c.val.toNat ≤ 0x7f := Nat.le_of_lt_succ h
  simp only [String.utf8EncodeChar, h', if_true]
  rfl

/-- No byte of a longer character is an ASCII byte. -/
theorem le_of_mem_utf8EncodeChar (h : ¬ IsAscii c) (hx : x ∈ String.utf8EncodeChar c) :
    0x80 ≤ x.toNat := by
  have h' : ¬ c.val.toNat ≤ 0x7f := by
    simp only [IsAscii, Char.toNat] at h
    omega
  simp only [String.utf8EncodeChar, h', if_false] at hx
  split at hx
  · simp only [List.mem_cons, List.not_mem_nil, or_false] at hx
    rcases hx with rfl | rfl <;> simp only [UInt8.toNat_ofNat'] <;> omega
  · split at hx
    · simp only [List.mem_cons, List.not_mem_nil, or_false] at hx
      rcases hx with rfl | rfl | rfl <;> simp only [UInt8.toNat_ofNat'] <;> omega
    · simp only [List.mem_cons, List.not_mem_nil, or_false] at hx
      rcases hx with rfl | rfl | rfl | rfl <;> simp only [UInt8.toNat_ofNat'] <;> omega

theorem zero_notMem_bytes (h : '\x00' ∉ s) : 0 ∉ bytes s := by
  intro hmem
  obtain ⟨c, hc, hx⟩ := List.mem_flatMap.mp hmem
  by_cases hascii : IsAscii c
  · rw [utf8EncodeChar_of_isAscii hascii, List.mem_singleton, ascii] at hx
    have hzero := congrArg UInt8.toNat hx
    rw [UInt8.toNat_ofNat', Nat.mod_eq_of_lt (Nat.lt_trans hascii (by decide))] at hzero
    have hnul : c = '\x00' := Char.toNat_inj.mp hzero.symm
    exact h (hnul ▸ hc)
  · exact absurd (le_of_mem_utf8EncodeChar hascii hx) (by decide)

theorem utf8Size_of_isAscii (h : IsAscii c) : c.utf8Size = 1 := by
  rw [← String.length_utf8EncodeChar, utf8EncodeChar_of_isAscii h]
  rfl

theorem toNat_ascii (h : IsAscii c) : (ascii c).toNat = c.toNat := by
  exact Nat.mod_eq_of_lt (Nat.lt_trans h (by decide))

/-- The first byte of a character. -/
def lead (c : Char) : UInt8 := (String.utf8EncodeChar c).head String.utf8EncodeChar_ne_nil

theorem lead_of_isAscii (h : IsAscii c) : lead c = ascii c := by
  simp [lead, utf8EncodeChar_of_isAscii h]

theorem le_lead (h : ¬ IsAscii c) : 0x80 ≤ (lead c).toNat :=
  le_of_mem_utf8EncodeChar h (List.head_mem _)

/-- The first byte of a text. -/
def head (s : Str) : Option UInt8 := s.bytes[0]?

@[simp] theorem head_nil : head [] = none := rfl

@[simp] theorem head_cons (c : Char) (s : Str) : head (c :: s) = some (lead c) := by
  cases he : String.utf8EncodeChar c with
  | nil => exact absurd he String.utf8EncodeChar_ne_nil
  | cons x xs => simp [head, lead, he]

/-- The byte at the end of a prefix is the first byte of what follows. -/
theorem getElem?_len (pre rest : Str) : (bytes (pre ++ rest))[pre.len]? = head rest :=
  getElem?_bytes_append pre rest 0

/-- The byte after an ASCII character is the first byte of what follows. -/
theorem getElem?_len_succ (pre rest : Str) (h : IsAscii c) :
    (bytes (pre ++ c :: rest))[pre.len + 1]? = head rest := by
  have hlen : pre.len + 1 = len (pre ++ [c]) := by simp [utf8Size_of_isAscii h]
  rw [hlen, List.append_cons pre c rest]
  exact getElem?_len _ _

/-- A first byte is a given ASCII byte exactly when the character is that
character. -/
theorem lead_eq_ascii_iff (hd : IsAscii d) : lead c = ascii d ↔ c = d := by
  by_cases h : IsAscii c
  · rw [lead_of_isAscii h]
    constructor
    · intro he
      have := congrArg UInt8.toNat he
      rw [toNat_ascii h, toNat_ascii hd] at this
      exact Char.toNat_inj.mp this
    · intro he; rw [he]
  · have hle := le_lead h
    constructor
    · intro he
      rw [he, toNat_ascii hd] at hle
      exact absurd hd (Nat.not_lt.mpr hle)
    · intro he
      subst he
      exact absurd hd h

/-! ## classes of bytes -/

/-- A test on bytes and a test on characters that agree on ASCII, and that
nothing else passes. -/
structure ByteClass (p : UInt8 → Bool) (q : Char → Bool) : Prop where
  onAscii : ∀ c, IsAscii c → p (ascii c) = q c
  onByte : ∀ x : UInt8, 0x80 ≤ x.toNat → p x = false
  onChar : ∀ c, ¬ IsAscii c → q c = false

namespace ByteClass

theorem lead (h : ByteClass p q) (c : Char) : p (lead c) = q c := by
  by_cases hc : IsAscii c
  · rw [lead_of_isAscii hc, h.onAscii c hc]
  · rw [h.onByte _ (le_lead hc), h.onChar c hc]

/-- Only ASCII characters are in the class. -/
theorem isAscii (h : ByteClass p q) (hc : q c = true) : IsAscii c := by
  refine Decidable.byContradiction fun hn => ?_
  rw [h.onChar c hn] at hc
  cases hc

theorem range (hlo : IsAscii lo) (hhi : IsAscii hi) :
    ByteClass (fun x => ascii lo ≤ x && x ≤ ascii hi) (fun c => lo ≤ c && c ≤ hi) where
  onAscii c hc := by
    have hle : ∀ {a b : Char}, IsAscii a → IsAscii b → (ascii a ≤ ascii b ↔ a ≤ b) := by
      intro a b ha hb
      rw [UInt8.le_iff_toNat_le, toNat_ascii ha, toNat_ascii hb]
      rfl
    simp only [hle hlo hc, hle hc hhi]
  onByte x hx := by
    have : ¬ x ≤ ascii hi := by
      rw [UInt8.le_iff_toNat_le, toNat_ascii hhi]
      exact Nat.not_le.mpr (Nat.lt_of_lt_of_le hhi hx)
    simp [this]
  onChar c hc := by
    have : ¬ c ≤ hi := fun h => hc (Nat.lt_of_le_of_lt h hhi)
    simp [this]

theorem or (h : ByteClass p q) (h' : ByteClass p' q') :
    ByteClass (fun x => p x || p' x) (fun c => q c || q' c) where
  onAscii c hc := by rw [h.onAscii c hc, h'.onAscii c hc]
  onByte x hx := by rw [h.onByte x hx, h'.onByte x hx]; rfl
  onChar c hc := by rw [h.onChar c hc, h'.onChar c hc]; rfl

/-- The first `n` bytes are in the class exactly when the first `n`
characters are. -/
theorem all_take_iff (h : ByteClass p q) (n : Nat) (s : Str) :
    (n ≤ s.bytes.length ∧ (s.bytes.take n).all p = true) ↔
      (n ≤ s.length ∧ (s.take n).all q = true) := by
  induction n generalizing s with
  | zero => simp
  | succ n ih =>
    cases s with
    | nil => simp
    | cons c s =>
      by_cases hc : IsAscii c
      · have := ih s
        simp only [bytes_cons, utf8EncodeChar_of_isAscii hc, List.cons_append, List.nil_append,
          List.length_cons, Nat.add_le_add_iff_right, List.take_succ_cons, List.all_cons,
          Bool.and_eq_true, h.onAscii c hc]
        exact ⟨fun ⟨h1, h2, h3⟩ => ⟨(this.mp ⟨h1, h3⟩).1, h2, (this.mp ⟨h1, h3⟩).2⟩,
          fun ⟨h1, h2, h3⟩ => ⟨(this.mpr ⟨h1, h3⟩).1, h2, (this.mpr ⟨h1, h3⟩).2⟩⟩
      · -- The first byte of a longer character is not in the class.
        have hlead : p (Str.lead c) = false := h.onByte _ (le_lead hc)
        obtain ⟨xs, hxs⟩ : ∃ xs, bytes (c :: s) = Str.lead c :: xs := by
          have := head_cons c s
          simp only [head] at this
          cases hb : bytes (c :: s) with
          | nil => rw [hb] at this; cases this
          | cons x xs => rw [hb] at this; cases this; exact ⟨xs, rfl⟩
        simp [hxs, hlead, h.onChar c hc]

end ByteClass

/-! ## ASCII words -/

/-- The bytes start with those of an ASCII word exactly when the text starts
with the word. -/
theorem take_bytes_eq_iff (hw : ∀ c ∈ word, IsAscii c) (s : Str) :
    (bytes s).take (len word) = bytes word ↔ word <+: s := by
  constructor
  · intro h
    induction word generalizing s with
    | nil => exact List.nil_prefix
    | cons c word ih =>
      have hc : IsAscii c := hw c (by simp)
      rw [len_cons, utf8Size_of_isAscii hc, Nat.add_comm, bytes_cons c,
        utf8EncodeChar_of_isAscii hc] at h
      cases s with
      | nil => simp at h
      | cons d s =>
        have hlead := head_cons d s
        rw [head] at hlead
        cases hb : bytes (d :: s) with
        | nil => rw [hb] at hlead; cases hlead
        | cons x xs =>
          rw [hb] at hlead h
          simp only [List.getElem?_cons_zero, Option.some.injEq] at hlead
          simp only [List.take_succ_cons, List.cons_append, List.nil_append, List.cons.injEq] at h
          obtain rfl : d = c := (lead_eq_ascii_iff hc).mp (hlead.symm.trans h.1)
          rw [bytes_cons, utf8EncodeChar_of_isAscii hc] at hb
          simp only [List.cons_append, List.nil_append, List.cons.injEq] at hb
          have hrest := ih (fun e he => hw e (by simp [he])) s (by rw [hb.2]; exact h.2)
          exact List.prefix_cons_inj d |>.mpr hrest
  · rintro ⟨r, rfl⟩
    rw [bytes_append, ← length_bytes, List.take_left]

theorem slice?_eq_word_iff {word : Str} (hw : ∀ c ∈ word, IsAscii c) (pre rest : Str) :
    slice? (bytes (pre ++ rest)) pre.len (pre.len + word.len) = some word.bytes ↔
      word <+: rest := by
  rw [slice?_append, ← take_bytes_eq_iff hw]
  by_cases hlen : word.len ≤ rest.len
  · rw [if_pos hlen, Option.some.injEq]
  · rw [if_neg hlen]
    constructor
    · intro h; cases h
    · intro h
      have := congrArg List.length h
      rw [List.length_take, length_bytes, length_bytes] at this
      omega

/-! ## cutting a text at a character boundary -/

theorem splitAt?_append (pre rest : Str) : splitAt? (pre ++ rest) pre.len = some (pre, rest) := by
  induction pre with
  | nil => simp [splitAt?]
  | cons c pre ih =>
    have hpos := c.utf8Size_pos
    obtain ⟨n, hn⟩ : ∃ n, len (c :: pre) = n + 1 := ⟨len (c :: pre) - 1, by simp; omega⟩
    have hle : c.utf8Size ≤ n + 1 := by rw [← hn, len_cons]; omega
    have hsub : n + 1 - c.utf8Size = len pre := by rw [← hn, len_cons]; omega
    rw [hn, List.cons_append, splitAt?, if_pos hle, hsub, ih]
    rfl

/-- A successful cut splits the text at that many bytes. -/
theorem eq_append_of_splitAt? (h : splitAt? s n = some (pre, rest)) :
    s = pre ++ rest ∧ pre.len = n := by
  induction s generalizing n pre with
  | nil =>
    cases n with
    | zero => simp only [splitAt?, Option.some.injEq, Prod.mk.injEq] at h; simp [← h.1, ← h.2]
    | succ n => simp [splitAt?] at h
  | cons c s ih =>
    cases n with
    | zero => simp only [splitAt?, Option.some.injEq, Prod.mk.injEq] at h; simp [← h.1, ← h.2]
    | succ n =>
      simp only [splitAt?] at h
      split at h
      · next hle =>
        simp only [Option.map_eq_some_iff, Prod.mk.injEq, Prod.exists] at h
        obtain ⟨a, b, hab, rfl, rfl⟩ := h
        obtain ⟨rfl, hlen⟩ := ih hab
        exact ⟨rfl, by rw [len_cons, hlen]; omega⟩
      · contradiction

theorem getFrom?_append (pre rest : Str) : getFrom? (pre ++ rest) pre.len = some rest := by
  rw [getFrom?, splitAt?_append]
  rfl

/-- Slicing between two character boundaries gives the text between them. -/
theorem get?_append (pre mid post : Str) :
    get? (pre ++ (mid ++ post)) pre.len (pre.len + mid.len) = some mid := by
  rw [get?, if_pos (Nat.le_add_right _ _), getFrom?_append, Option.bind_some,
    Nat.add_sub_cancel_left, splitAt?_append]
  rfl

end Str

end Kimojio
