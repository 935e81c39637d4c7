import Kimojio.Json.Decode

/-!
# Kimojio.Resolver.Request

Model of the request side of `kimojio/src/resolver.rs`: the error type of the
resolver, and the encoder of a `ResolveHostname` request.

The encoder writes the host between two fixed texts, escaping it character by
character. Each character becomes one *char* of RFC 8259 that stands for it
(`encodeCharacter_spec`), so the contents decode to the host, and the frame as
a whole is the text of one fixed tree with the host in one place.
-/

namespace Kimojio.Resolver

open Json Rfc8259 Str

/-- The errors of `resolve`. An `Errno` is its number, an `io::Error` its
text. -/
inductive ResolveError where
  | hostNotFound (host : Str)
  | protocol (detail : Str)
  | io (operation : Str) (source : Int)
  | system (host : Str) (source : Str)
  | helperUnavailable (detail : Str)
  | canceled
  deriving DecidableEq, Repr

/-- The Varlink method of the request. -/
def resolveHostnameMethod : Str := "io.systemd.Resolve.ResolveHostname".toList

/-- A hexadecimal digit; the values are below 16. -/
def hexDigit (value : UInt8) : UInt8 :=
  if value ≤ 9 then ascii '0' + value else ascii 'a' + UInt8.ofNat (value.toNat - 10)

/-- The bytes of one character between the quotation marks. -/
def encodeCharacter (character : Char) : List UInt8 :=
  if character = '"' then [ascii '\\', ascii '"']
  else if character = '\\' then [ascii '\\', ascii '\\']
  else if character = '/' then [ascii '\\', ascii '/']
  else if character = '\x08' then [ascii '\\', ascii 'b']
  else if character = '\x0c' then [ascii '\\', ascii 'f']
  else if character = '\n' then [ascii '\\', ascii 'n']
  else if character = '\r' then [ascii '\\', ascii 'r']
  else if character = '\t' then [ascii '\\', ascii 't']
  else if character ≤ '\x1f' then
    let value := UInt8.ofNat character.toNat
    [ascii '\\', ascii 'u', ascii '0', ascii '0', hexDigit (value >>> 4), hexDigit (value &&& 0x0f)]
  else String.utf8EncodeChar character

/-- Appends the characters of `value`, escaped. -/
def encodeJsonStringContents (value : Str) (encoded : List UInt8) : List UInt8 :=
  value.foldl (fun encoded character => encoded ++ encodeCharacter character) encoded

/-- `PREFIX` -/
def requestHead : Str := "\x7b\"method\":\"".toList

/-- `PARAMETERS` -/
def requestParameters : Str := "\",\"parameters\":\x7b\"name\":\"".toList

/-- `SUFFIX` -/
def requestTail : Str := "\"\x7d\x7d".toList

/-- The frame of a request for `host`: the JSON text and a NUL byte. -/
def encodeVarlinkRequest (host : Str) : Except ResolveError (List UInt8) :=
  let encoded := requestHead.bytes ++ resolveHostnameMethod.bytes ++ requestParameters.bytes
  .ok (encodeJsonStringContents host encoded ++ requestTail.bytes ++ [0])

/-! ## one character -/

/-- The text `w` stands for the character `c` between quotation marks. -/
def Stands (c : Char) (w : Str) : Prop :=
  ∃ p, Pieces w [p] ∧ ∀ ps cs, Paired ps cs → Paired (p :: ps) (c :: cs)

theorem stands_simple (he : isSimpleEscape e = true) (hc : simpleValue e = c) :
    Stands c ['\\', e] := by
  subst hc
  exact ⟨.char (simpleValue e), .simple he .nil, fun _ _ h => .char h⟩

/-- The two digits of a control character. -/
theorem hexDigit_control : ∀ n < 32,
    hexDigit (UInt8.ofNat n >>> 4) = ascii (Nat.digitChar (n / 16)) ∧
      hexDigit (UInt8.ofNat n &&& 0x0f) = ascii (Nat.digitChar (n % 16)) ∧
      isHexDigit (Nat.digitChar (n / 16)) = true ∧ isHexDigit (Nat.digitChar (n % 16)) = true ∧
      unitValue '0' '0' (Nat.digitChar (n / 16)) (Nat.digitChar (n % 16)) = n := by
  decide

theorem stands_control (h : c.toNat < 32) (hd : isHexDigit d = true) (hd' : isHexDigit d' = true)
    (hvalue : unitValue '0' '0' d d' = c.toNat) : Stands c ['\\', 'u', '0', '0', d, d'] := by
  refine ⟨.unit (unitValue '0' '0' d d'), .unicode (by decide) (by decide) hd hd' .nil, ?_⟩
  intro ps cs hps
  have hchar := Paired.scalar (u := c.toNat) (by unfold IsHigh; omega) (by unfold IsLow; omega) hps
  rwa [Char.ofNat_toNat, ← hvalue] at hchar

/-- **Each character stands for itself.** -/
theorem encodeCharacter_spec (c : Char) : ∃ w, encodeCharacter c = bytes w ∧ Stands c w := by
  fun_cases encodeCharacter c with
  | case1 h => exact ⟨_, rfl, stands_simple (e := '"') rfl h.symm⟩
  | case2 h₁ h => exact ⟨['\\', '\\'], rfl, stands_simple rfl h.symm⟩
  | case3 h₁ h₂ h => exact ⟨['\\', '/'], rfl, stands_simple rfl h.symm⟩
  | case4 h₁ h₂ h₃ h => exact ⟨['\\', 'b'], rfl, stands_simple rfl h.symm⟩
  | case5 h₁ h₂ h₃ h₄ h => exact ⟨['\\', 'f'], rfl, stands_simple rfl h.symm⟩
  | case6 h₁ h₂ h₃ h₄ h₅ h => exact ⟨['\\', 'n'], rfl, stands_simple rfl h.symm⟩
  | case7 h₁ h₂ h₃ h₄ h₅ h₆ h => exact ⟨['\\', 'r'], rfl, stands_simple rfl h.symm⟩
  | case8 h₁ h₂ h₃ h₄ h₅ h₆ h₇ h => exact ⟨['\\', 't'], rfl, stands_simple rfl h.symm⟩
  | case9 h₁ h₂ h₃ h₄ h₅ h₆ h₇ h₈ h value =>
    have hlt : c.toNat < 32 := Nat.lt_succ_of_le h
    obtain ⟨hhigh, hlow, hd, hd', hvalue⟩ := hexDigit_control c.toNat hlt
    refine ⟨_, ?_, stands_control hlt hd hd' hvalue⟩
    have hascii := byteClass_hexdigit.isAscii hd
    have hascii' := byteClass_hexdigit.isAscii hd'
    simp only [value, hhigh, hlow, bytes_cons, bytes_nil, utf8EncodeChar_of_isAscii hascii,
      utf8EncodeChar_of_isAscii hascii']
    rfl
  | case10 h₁ h₂ h₃ h₄ h₅ h₆ h₇ h₈ h =>
    have hmin : 0x20 ≤ c.toNat := Nat.lt_of_not_le h
    have hplain : isUnescaped c = true := by simp [isUnescaped, hmin, h₁, h₂]
    exact ⟨[c], by simp, .char c, .unescaped hplain .nil, fun _ _ h => .char h⟩

/-! ## the contents -/

/-- The contents are a body whose value is the text. -/
theorem encodeJsonStringContents_spec (value : Str) (encoded : List UInt8) :
    ∃ body, encodeJsonStringContents value encoded = encoded ++ bytes body ∧
      Decodes body value := by
  induction value generalizing encoded with
  | nil => exact ⟨[], (List.append_nil _).symm, [], .nil, .nil⟩
  | cons c value ih =>
    obtain ⟨w, hw, p, hp, hstands⟩ := encodeCharacter_spec c
    obtain ⟨body, hbody, ps, hps, hpaired⟩ := ih (encoded ++ encodeCharacter c)
    refine ⟨w ++ body, ?_, p :: ps, hp.append hps, hstands ps value hpaired⟩
    rw [encodeJsonStringContents, List.foldl_cons, ← encodeJsonStringContents, hbody, hw,
      bytes_append, List.append_assoc]

/-- There is no NUL between quotation marks. -/
theorem nul_notMem_chars (h : Chars body) : '\x00' ∉ body := by
  have hhex : ∀ {d : Char}, isHexDigit d = true → '\x00' ≠ d := by
    rintro _ hd rfl
    exact absurd hd (by decide)
  induction h with
  | nil => simp
  | unescaped hc _ ih =>
    refine List.not_mem_cons_of_ne_of_not_mem ?_ ih
    rintro rfl
    exact absurd hc (by decide)
  | simple hc _ ih =>
    refine List.not_mem_cons_of_ne_of_not_mem (by decide) (List.not_mem_cons_of_ne_of_not_mem ?_ ih)
    rintro rfl
    exact absurd hc (by decide)
  | unicode h₁ h₂ h₃ h₄ _ ih =>
    simp only [List.mem_cons, hhex h₁, hhex h₂, hhex h₃, hhex h₄, ih, or_false]
    decide

/-! ## the frame -/

/-- The request as a tree, `body` being the text of the name. -/
def requestTree (body : Str) : Value :=
  .object [("method".toList, .string resolveHostnameMethod),
    ("parameters".toList, .object [("name".toList, .string body)])]

/-- The request as a text. -/
def requestText (body : Str) : Str :=
  requestHead ++ (resolveHostnameMethod ++ (requestParameters ++ (body ++ requestTail)))

theorem structural_self (c : Char) : Structural c [c] := ⟨[], [], ws_nil, ws_nil, rfl⟩

theorem chars_plain (h : w.all isUnescaped = true) : Chars w := by
  induction w with
  | nil => exact .nil
  | cons c w ih =>
    rw [List.all_cons, Bool.and_eq_true] at h
    exact .unescaped h.1 (ih h.2)

/-! Values without white space. -/

theorem derives_string (h : Chars body) : Derives (.string body) ('"' :: (body ++ ['"'])) := by
  exact ⟨h, rfl⟩

theorem derives_object (h : DerivesMembers ms m) :
    Derives (.object ms) ('\x7b' :: (m ++ ['\x7d'])) := by
  exact ⟨['\x7b'], m, ['\x7d'], structural_self _, h, structural_self _, rfl⟩

theorem derivesMembers_cons (hk : k.all isUnescaped = true) (hv : Derives v a)
    (hms : DerivesMoreMembers ms b) :
    DerivesMembers ((k, v) :: ms) ('"' :: (k ++ ('"' :: ':' :: (a ++ b)))) := by
  exact ⟨'"' :: (k ++ ['"']), [':'], a, b, ⟨chars_plain hk, rfl⟩, structural_self _, hv, hms,
    by simp⟩

theorem derivesMoreMembers_cons (hk : k.all isUnescaped = true) (hv : Derives v a)
    (hms : DerivesMoreMembers ms b) :
    DerivesMoreMembers ((k, v) :: ms) (',' :: '"' :: (k ++ ('"' :: ':' :: (a ++ b)))) := by
  rw [DerivesMoreMembers]
  exact ⟨[','], '"' :: (k ++ ['"']), [':'], a, b, structural_self _, ⟨chars_plain hk, rfl⟩,
    structural_self _, hv, hms, by simp⟩

theorem derivesMoreMembers_nil : DerivesMoreMembers [] [] := by
  rw [DerivesMoreMembers]

theorem jsonText_request (h : Chars body) : JsonText (requestTree body) (requestText body) := by
  have hname := derives_object
    (derivesMembers_cons (k := "name".toList) rfl (derives_string h) derivesMoreMembers_nil)
  have hmethod : Derives (.string resolveHostnameMethod) _ := derives_string (chars_plain rfl)
  have hrequest := derives_object (derivesMembers_cons (k := "method".toList) rfl hmethod
    (derivesMoreMembers_cons (k := "parameters".toList) rfl hname derivesMoreMembers_nil))
  refine ⟨[], _, [], ws_nil, hrequest, ws_nil, ?_⟩
  have hhead : requestHead = '\x7b' :: '"' :: ("method".toList ++ ['"', ':', '"']) := rfl
  have hparameters : requestParameters = '"' :: ',' :: '"' :: ("parameters".toList ++
      ('"' :: ':' :: '\x7b' :: '"' :: ("name".toList ++ ['"', ':', '"']))) := rfl
  have htail : requestTail = ['"', '\x7d', '\x7d'] := rfl
  simp only [requestText, hhead, hparameters, htail, List.cons_append, List.append_assoc,
    List.nil_append, List.append_nil]

/-- The token of the name reads as `host`: as it stands, or through
`EscapeString`. -/
inductive ReadsAs (host : Str) : Token → Prop where
  | plain : ReadsAs host (.string host)
  | escaped : e.unescape.items = host.map .ok →
      (∀ buffer, (e.unescapeInto buffer).1 = some (.ok host) ↔ host.len ≤ buffer.length) →
      (∀ other, e.eqUnescaped other = true ↔ other = host) → ReadsAs host (.escapeString e)

theorem readsAs_stringToken (h : Decodes body host) : ReadsAs host (stringToken body) := by
  have hchars : Chars body := by
    obtain ⟨ps, hps, -⟩ := h
    exact hps.chars
  rw [stringToken]
  split
  · have hcorrect := EscapeString.correct_of_chars (b := ⟨body⟩) hchars
    refine .escaped (hcorrect.decoded host h) (fun buffer => ?_) fun other => ?_
    · rw [hcorrect.into_ok_iff]
      exact ⟨fun hd => hd.2, fun hfit => ⟨h, hfit⟩⟩
    · rw [hcorrect.eq_iff]
      exact ⟨fun hd => decodes_unique hd h, fun heq => heq ▸ h⟩
  · next hb =>
    rw [decodes_unique (decodes_self hchars hb) h]
    exact .plain

theorem encodeVarlinkRequest_eq (host : Str) :
    ∃ body, encodeVarlinkRequest host = .ok (bytes (requestText body) ++ [0]) ∧
      Decodes body host := by
  obtain ⟨body, hbody, hdecodes⟩ := encodeJsonStringContents_spec host
    (requestHead.bytes ++ resolveHostnameMethod.bytes ++ requestParameters.bytes)
  refine ⟨body, ?_, hdecodes⟩
  rw [encodeVarlinkRequest, hbody]
  simp only [requestText, bytes_append, List.append_assoc]

theorem encodeVarlinkRequest_frame (host : Str) :
    ∃ text, encodeVarlinkRequest host = .ok (text ++ [0]) ∧ 0 ∉ text := by
  obtain ⟨body, henc, ps, hps, -⟩ := encodeVarlinkRequest_eq host
  refine ⟨_, henc, zero_notMem_bytes ?_⟩
  simp only [requestText, List.mem_append, nul_notMem_chars hps.chars]
  decide

/-- The visitor calls of a request, `name` being that of the host. -/
def requestTokens (name : Token) : List Token :=
  [.objectStart, .key "method".toList, .string resolveHostnameMethod, .key "parameters".toList,
    .objectStart, .key "name".toList, name, .objectEnd, .objectEnd]

theorem tokensOf_requestTree (body : Str) :
    tokensOf (requestTree body) = requestTokens (stringToken body) := by
  simp only [requestTree, tokensOf, tokensOfMembers]
  rfl

theorem depth_requestTree (body : Str) : (requestTree body).depth ≤ maxDepth := by
  simp only [requestTree, Value.depth, Value.depthMembers]
  decide

/-- **Requests.** The frame of any host is a text without NUL and one NUL
byte. The tokenizer reads the text as the one object of a request, whose name
reads as the host; and the frame determines the host. -/
theorem encodeVarlinkRequest_roundtrip (host : Str) :
    ∃ text name, encodeVarlinkRequest host = .ok (bytes text ++ [0]) ∧ 0 ∉ bytes text ∧
      uninterrupted text = (requestTokens name, .finished) ∧ ReadsAs host name ∧
      ∀ other, encodeVarlinkRequest other = encodeVarlinkRequest host → other = host := by
  obtain ⟨body, henc, hdecodes⟩ := encodeVarlinkRequest_eq host
  have hchars : Chars body := by
    obtain ⟨ps, hps, -⟩ := hdecodes
    exact hps.chars
  refine ⟨requestText body, stringToken body, henc, ?_, ?_, readsAs_stringToken hdecodes, ?_⟩
  · obtain ⟨text, henc', hnul⟩ := encodeVarlinkRequest_frame host
    rw [henc, Except.ok.injEq, List.append_cancel_right_eq] at henc'
    rwa [henc']
  · rw [uninterrupted_eq, Tokenizer.trace_new (jsonText_request hchars) (depth_requestTree body),
      tokensOf_requestTree]
    rfl
  · intro other heq
    obtain ⟨body', henc', hdecodes'⟩ := encodeVarlinkRequest_eq other
    rw [henc, henc', Except.ok.injEq, List.append_cancel_right_eq] at heq
    have hbody := bytes_inj heq
    simp only [requestText, List.append_cancel_left_eq, List.append_cancel_right_eq] at hbody
    exact decodes_unique (hbody ▸ hdecodes') hdecodes

end Kimojio.Resolver
