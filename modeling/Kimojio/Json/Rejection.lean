import Kimojio.Json.Resume

/-!
# Kimojio.Json.Rejection

What an error of the tokenizer says about the text before it.

The text up to the reported offset can always be completed: what a failed
scanner has read begins a token (`CutOff`), and the containers that are open
can be closed (`completion`). What was read before is read again in the same
way, whatever comes after it, except that a number must be followed by text
that ends it (`ReadsTo`).

`UnexpectedEof` says more, that all of the input can be completed. A keyword
that is shorter than it should be is reported in this way whether it is the
beginning of the keyword or not; where the input does not end so, it can be
completed (`unexpectedEof_viable`).
-/

namespace Kimojio.Json

open Rfc8259
open Str

/-! ## what a scanner has read when it fails -/

/-- The text before a fault, with more text after it, satisfies `P`. The end of
the input is reported where it is, or where there is a short keyword. -/
structure CutOff (P : Str → Prop) (short : Prop) (s : Str) (f : Fault) : Prop where
  text : ∃ pre more, s = pre ++ f.rest ∧ P (pre ++ more)
  eof : f.kind = .unexpectedEof → f.rest = [] ∨ short

/-- A fault that is reported before any of the text. -/
theorem cutOff_start (h : P more) (heof : kind = .unexpectedEof → s = [] ∨ short) :
    CutOff P short s ⟨kind, s⟩ :=
  ⟨⟨[], more, rfl, h⟩, heof⟩

/-- A fault after text that was read before. -/
theorem CutOff.after (h : CutOff P short s f) (text : Str)
    (hPQ : ∀ t, P t → ∃ more, Q (text ++ (t ++ more))) : CutOff Q short (text ++ s) f := by
  obtain ⟨⟨pre, more, rfl, hP⟩, heof⟩ := h
  obtain ⟨more', hQ⟩ := hPQ _ hP
  refine ⟨⟨text ++ pre, more ++ more', (List.append_assoc ..).symm, ?_⟩, heof⟩
  simpa only [List.append_assoc] using hQ

theorem CutOff.mono (h : CutOff P short s f) (hPQ : ∀ t, P t → ∃ more, Q (t ++ more)) :
    CutOff Q short s f :=
  h.after [] hPQ

theorem prepend_eq_error (h : prepend text r = .error f) : r = .error f := by
  cases r with
  | error g => exact h
  | ok p => cases h

theorem someDigits_fault (h : someDigits s = .error f) : CutOff Digits short s f := by
  rw [someDigits] at h
  split at h
  · cases h
    exact cutOff_start (by simp [Digits, isDigit] : Digits ['0']) (by simp)
  · cases h

theorem intPart_fault (h : intPart s = .error f) : CutOff IntPart short s f := by
  revert h
  fun_cases intPart s with
  | case1 =>
    intro h
    cases h
    exact cutOff_start (.inl rfl) fun _ => .inl rfl
  | case2 s _ =>
    intro h
    cases h
    exact ⟨⟨['0'], [], rfl, .inl rfl⟩, by simp⟩
  | case5 =>
    intro h
    cases h
    exact cutOff_start (.inl rfl) (by simp)
  | _ =>
    intro h
    cases h

theorem fracPart_fault (h : fracPart s = .error f) : CutOff FracPart short s f := by
  revert h
  fun_cases fracPart s with
  | case2 s =>
    intro h
    exact (someDigits_fault (prepend_eq_error h)).after ['.'] fun ds hds =>
      ⟨[], .inr ⟨ds, hds, by rw [List.append_nil]; rfl⟩⟩
  | _ =>
    intro h
    cases h

theorem expDigits_fault (h : expDigits s = .error f) :
    CutOff (fun t => ∃ sg ds, ExpSign sg ∧ Digits ds ∧ t = sg ++ ds) short s f := by
  have hplain {s : Str} (h : someDigits s = .error f) :
      CutOff (fun t => ∃ sg ds, ExpSign sg ∧ Digits ds ∧ t = sg ++ ds) short s f :=
    (someDigits_fault h).mono fun ds hds =>
      ⟨[], [], ds, .inl rfl, hds, by rw [List.append_nil]; rfl⟩
  revert h
  fun_cases expDigits s with
  | case1 => exact hplain
  | case2 c s hc =>
    intro h
    have hsign : ExpSign [c] := by rcases hc with rfl | rfl <;> simp [ExpSign]
    exact (someDigits_fault (prepend_eq_error h)).after [c] fun ds hds =>
      ⟨[], [c], ds, hsign, hds, by rw [List.append_nil]⟩
  | case3 => exact hplain

theorem expPart_fault (h : expPart s = .error f) : CutOff ExpPart short s f := by
  revert h
  fun_cases expPart s with
  | case2 c s hc =>
    intro h
    refine (expDigits_fault (prepend_eq_error h)).after [c] ?_
    rintro t ⟨sg, ds, hsg, hds, rfl⟩
    exact ⟨[], .inr ⟨c, sg, ds, hc, hsg, hds, by rw [List.append_nil]; rfl⟩⟩
  | _ =>
    intro h
    cases h

theorem andThen_eq_error (h : andThen p q s = .error f) :
    p s = .error f ∨ ∃ token rest, p s = .ok (token, rest) ∧ q rest = .error f := by
  rw [andThen] at h
  split at h
  · next hp => exact .inl (by rw [hp, h])
  · next token rest hp => exact .inr ⟨token, rest, hp, prepend_eq_error h⟩

/-- A number without its sign. -/
def Unsigned (t : Str) : Prop :=
  ∃ i fr e, IntPart i ∧ FracPart fr ∧ ExpPart e ∧ t = i ++ (fr ++ e)

theorem unsigned_fault (h : unsigned s = .error f) : CutOff Unsigned short s f := by
  rcases andThen_eq_error h with h | ⟨i, r, hi, hrest⟩
  · exact (intPart_fault h).mono fun i hi =>
      ⟨[], i, [], [], hi, .inl rfl, .inl rfl, rfl⟩
  · obtain ⟨hint, rfl⟩ := intPart_sound hi
    rcases andThen_eq_error hrest with hfault | ⟨fr, r', hfr, hexp⟩
    · exact (fracPart_fault hfault).after i fun fr hfr =>
        ⟨[], i, fr, [], hint, hfr, .inl rfl, rfl⟩
    · obtain ⟨hfrac, rfl⟩ := fracPart_sound hfr
      rw [← List.append_assoc]
      exact (expPart_fault hexp).after (i ++ fr) fun e he =>
        ⟨[], i, fr, e, hint, hfrac, he, by rw [List.append_nil, List.append_assoc]⟩

theorem number_fault (h : number s = .error f) : CutOff Number short s f := by
  have hplain {s : Str} (h : unsigned s = .error f) : CutOff Number short s f := by
    refine (unsigned_fault h).mono ?_
    rintro t ⟨i, fr, e, hi, hfr, he, rfl⟩
    exact ⟨[], [], i, fr, e, .inl rfl, hi, hfr, he, by rw [List.append_nil]; rfl⟩
  revert h
  fun_cases number s with
  | case1 => exact hplain
  | case2 s =>
    intro h
    refine (unsigned_fault (prepend_eq_error h)).after ['-'] ?_
    rintro t ⟨i, fr, e, hi, hfr, he, rfl⟩
    exact ⟨[], ['-'], i, fr, e, .inr rfl, hi, hfr, he, by rw [List.append_nil]⟩
  | case3 => exact hplain

theorem stringBody_fault (h : stringBody s = .error f) : CutOff Chars short s f := by
  fun_induction stringBody s with
  | case2 => cases h
  | case3 =>
    -- the escape character is the last of the text
    cases h
    exact ⟨⟨['\\'], ['"'], rfl, .simple rfl .nil⟩, by simp⟩
  | case4 e s he _ ih =>
    exact (ih (prepend_eq_error h)).after ['\\', e] fun t ht =>
      ⟨[], .simple he (by rw [List.append_nil]; exact ht)⟩
  | case5 h₁ h₂ h₃ h₄ s hhex _ _ ih =>
    simp only [Bool.and_eq_true] at hhex
    obtain ⟨⟨⟨hh₁, hh₂⟩, hh₃⟩, hh₄⟩ := hhex
    exact (ih (prepend_eq_error h)).after ['\\', 'u', h₁, h₂, h₃, h₄] fun t ht =>
      ⟨[], .unicode hh₁ hh₂ hh₃ hh₄ (by rw [List.append_nil]; exact ht)⟩
  | case10 c s hq hb hc ih =>
    exact (ih (prepend_eq_error h)).after [c] fun t ht =>
      ⟨[], .unescaped (isUnescaped_of hq hb hc) (by rw [List.append_nil]; exact ht)⟩
  | _ =>
    cases h
    exact cutOff_start .nil (by simp)

/-- A keyword that ends too early is too short. -/
theorem literal_fault (h : literal word s = .error f) :
    f.rest = s ∧ (f.kind = .unexpectedEof → len s < len word) := by
  rw [literal] at h
  split at h
  · split at h
    · cases h
    · cases h
      exact ⟨rfl, by simp⟩
  · next hlen =>
    cases h
    exact ⟨rfl, fun _ => Nat.lt_of_not_le hlen⟩

/-- The keywords of the grammar. -/
def keywords : List Str := [['t', 'r', 'u', 'e'], ['f', 'a', 'l', 's', 'e'], ['n', 'u', 'l', 'l']]

/-- A value may come after the text, by its last character. -/
def beforeValue (text : Str) : Bool :=
  text.getLast?.all fun c => isWs c || c = '[' || c = ',' || c = ':'

theorem beforeValue_append_ws (h : beforeValue text = true) (hw : Ws w) :
    beforeValue (text ++ w) = true := by
  unfold beforeValue at h ⊢
  rw [List.getLast?_append]
  cases hlast : w.getLast? with
  | none => simpa using h
  | some c => simp [hw c (List.mem_of_getLast? hlast)]

namespace Cfg

/-! ## completing a document -/

/-- The states after a value. -/
def AfterValue (state : State) : Prop := state = .done ∨ state = .arrayComma ∨ state = .objectComma

theorem not_afterValue_of_expectsValue {state : State} (h : ExpectsValue state) :
    ¬ AfterValue state := by
  rcases h with rfl | rfl | rfl | rfl <;> simp [AfterValue]

theorem not_afterValue_of_expectsKey {state : State} (h : ExpectsKey state) :
    ¬ AfterValue state := by
  rcases h with rfl | rfl <;> simp [AfterValue]

/-- The text may stand where the scan is: it ends a number, if one was read
last. -/
def Follows (c : Cfg) (text : Str) : Prop := AfterValue c.state → Delimited text

/-- The text leads from where the scan is to the end of a document. -/
def Completes (c : Cfg) (text : Str) : Prop :=
  Accepts ⟨c.state, c.stack, text⟩ ∧ Follows c text

theorem accepts_congr (h : c.trace = emit toks c'.trace) : Accepts c ↔ Accepts c' := by
  rw [Accepts, Accepts, h, emit_snd]

theorem Completes.ws (h : Completes c text) (hw : Ws w) : Completes c (w ++ text) := by
  refine ⟨?_, fun hafter => delimited_ws hw (h.2 hafter)⟩
  rw [Accepts, trace_ws hw]
  exact h.1

/-- The brackets that close the open containers. -/
def closing (stack : List Bool) : Str := stack.map closeChar

theorem delimited_closing (stack : List Bool) : Delimited (closing stack) := by
  cases stack with
  | nil => exact delimited_nil
  | cons isArray stack =>
    intro c hc
    obtain rfl : closeChar isArray = c := by simpa [closing] using hc
    cases isArray <;> simp [closeChar]

theorem accepts_closing (stack : List Bool) : Accepts (valueEnd stack (closing stack)) := by
  induction stack with
  | nil => exact congrArg Prod.snd (trace_done ws_nil)
  | cons isArray stack ih =>
    have hstate : after (isArray :: stack) = commaState isArray := by cases isArray <;> rfl
    have hclose : trace ⟨commaState isArray, isArray :: stack, _⟩ =
        emit _ (trace (valueEnd stack (closing stack))) :=
      trace_close isArray (.inr rfl) (structural_of_ws ws_nil (closeChar isArray))
    rw [← hstate] at hclose
    exact (accepts_congr hclose).mpr ih

theorem valueEnd_of_afterValue {c : Cfg} (hc : c.WellFormed) (h : AfterValue c.state) (r : Str) :
    ⟨c.state, c.stack, r⟩ = valueEnd c.stack r := by
  obtain ⟨state, stack, rest⟩ := c
  rcases h with rfl | rfl | rfl
  · obtain rfl : stack = [] := hc
    rfl
  · obtain ⟨stack, rfl⟩ := List.head?_eq_some_iff.mp hc
    rfl
  · obtain ⟨stack, rfl⟩ := List.head?_eq_some_iff.mp hc
    rfl

theorem number_zero : Number ['0'] :=
  ⟨[], ['0'], [], [], .inl rfl, .inl rfl, .inl rfl, .inl rfl, rfl⟩

theorem completes_value (hv : ExpectsValue c.state)
    (htrace : trace ⟨c.state, c.stack, text ++ closing c.stack⟩ =
      emit [tok] (trace (valueEnd c.stack (closing c.stack)))) :
    Completes c (text ++ closing c.stack) :=
  ⟨(accepts_congr htrace).mpr (accepts_closing c.stack),
    fun h => absurd h (not_afterValue_of_expectsValue hv)⟩

theorem completes_number (hv : ExpectsValue c.state) (ht : Number text) :
    Completes c (text ++ closing c.stack) :=
  completes_value hv (trace_number hv ht (delimited_closing c.stack))

theorem completes_name (hk : ExpectsKey c.state) (hname : IsString name text) (hw : Ws w) :
    Completes c (text ++ (w ++ [':'] ++ '0' :: closing c.stack)) := by
  have hvalue : Accepts ⟨.objectValue, c.stack, ['0'] ++ closing c.stack⟩ :=
    (completes_number (c := ⟨.objectValue, c.stack, []⟩) (.inr (.inl rfl)) number_zero).1
  have htrace : trace ⟨c.state, c.stack, _⟩ =
      emit _ (trace ⟨.objectValue, c.stack, ['0'] ++ closing c.stack⟩) :=
    trace_name hk hname (structural_of_ws hw ':')
  exact ⟨(accepts_congr htrace).mpr hvalue, fun h => absurd h (not_afterValue_of_expectsKey hk)⟩

/-- Every document can be completed where a token ends. -/
theorem exists_completes (hc : c.WellFormed) : ∃ text, Completes c text := by
  have hcases : ExpectsValue c.state ∨ ExpectsKey c.state ∨ AfterValue c.state := by
    cases c.state <;> simp [ExpectsValue, ExpectsKey, AfterValue]
  rcases hcases with hv | hk | hafter
  · exact ⟨_, completes_number hv number_zero⟩
  · exact ⟨_, completes_name hk ⟨.nil, rfl⟩ ws_nil⟩
  · refine ⟨closing c.stack, ?_, fun _ => delimited_closing c.stack⟩
    rw [valueEnd_of_afterValue hc hafter]
    exact accepts_closing c.stack

/-! ## where a step fails -/

/-- The keyword that starts with a character. -/
structure Keyword (first : Char) (word : Str) : Prop where
  mem : first :: word ∈ keywords
  isWs_first : isWs first = false
  ne_bracket : first ≠ ']'
  value_eq : ∃ tok, ∀ state stack s, value ⟨state, stack, first :: s⟩ first s =
    scalar ⟨state, stack, first :: s⟩ (fun _ => tok) (literal (first :: word) (first :: s))

/-- A value should start, and what is left is shorter than the keyword that
its first character asks for. -/
def ShortKeyword (c : Cfg) (f : Fault) : Prop :=
  ExpectsValue c.state ∧ ∃ w first rest word, Ws w ∧ c.rest = w ++ first :: rest ∧
    f.rest = first :: rest ∧ Keyword first word ∧ len (first :: rest) < len (first :: word)

theorem scalar_fault {c : Cfg} (h : (c.scalar tok r).1 = .failed f) : r = .error f := by
  cases r with
  | error g =>
    cases h
    rfl
  | ok p => cases h

/-- A string that is cut off, with text after it. -/
theorem cutOff_string (h : stringBody s = .error f) {rest : Str}
    (hP : ∀ body text, IsString body text → P (text ++ rest)) : CutOff P short ('"' :: s) f := by
  refine (stringBody_fault h).after ['"'] fun body hbody => ⟨'"' :: rest, ?_⟩
  have htext := hP body _ ⟨hbody, rfl⟩
  simpa only [List.cons_append, List.append_assoc, List.nil_append] using htext

theorem value_fault (hc : c.WellFormed) (hv : ExpectsValue c.state) {rest : Str}
    (hr : c.rest = first :: rest) (h : (c.value first rest).1 = .failed f) :
    CutOff (Completes c) (ShortKeyword c f) c.rest f := by
  obtain ⟨text, htext⟩ := exists_completes hc
  have hopen {isArray : Bool} {state : State} {tok : Token}
      (h : (c.openContainer isArray state tok rest).1 = .failed f) :
      CutOff (Completes c) (ShortKeyword c f) c.rest f := by
    unfold openContainer at h
    split at h
    · cases h
      exact cutOff_start htext nofun
    · cases h
  have hword {word : Str} {tok : Token} (hkey : Keyword first word)
      (h : (c.scalar (fun _ => tok) (literal (first :: word) c.rest)).1 = .failed f) :
      CutOff (Completes c) (ShortKeyword c f) c.rest f := by
    obtain ⟨hrest, hshort⟩ := literal_fault (scalar_fault h)
    refine ⟨⟨[], text, hrest.symm, htext⟩, fun hkind => .inr ?_⟩
    exact ⟨hv, [], first, rest, word, ws_nil, hr, hrest.trans hr, hkey, hr ▸ hshort hkind⟩
  revert h
  refine value_rule (P := fun r => r.1 = .failed f → _) c first rest
    (fun _ => hopen) (fun _ => hopen) ?_ ?_ ?_ ?_ ?_ ?_
  · rintro rfl h
    rw [hr]
    exact cutOff_string (scalar_fault h) fun body text ht =>
      completes_value hv (trace_string hv ht (closing c.stack))
  · rintro rfl
    exact hword ⟨by decide, by decide, by decide, _, fun _ _ _ => rfl⟩
  · rintro rfl
    exact hword ⟨by decide, by decide, by decide, _, fun _ _ _ => rfl⟩
  · rintro rfl
    exact hword ⟨by decide, by decide, by decide, _, fun _ _ _ => rfl⟩
  · intro h
    exact (number_fault (scalar_fault h)).mono fun t ht => ⟨closing c.stack, completes_number hv ht⟩
  · intro h
    cases h
    exact cutOff_start htext nofun

theorem colon_fault {c : Cfg} (h : (c.colon name s).1 = .failed f) :
    f.rest = s ∧ f.kind ≠ .unexpectedEof := by
  cases s with
  | nil =>
    cases h
    exact ⟨rfl, by simp⟩
  | cons d rest =>
    simp only [colon] at h
    split at h
    · cases h
    · cases h
      exact ⟨rfl, by simp⟩

theorem key_fault (hc : c.WellFormed) (hk : ExpectsKey c.state) {rest : Str}
    (hr : c.rest = first :: rest) (h : (c.key first rest).1 = .failed f) :
    CutOff (Completes c) short c.rest f := by
  unfold key at h
  split at h
  · next hquote =>
    rw [hr, hquote]
    split at h
    · next g hbody =>
      cases h
      exact cutOff_string hbody fun name text ht => completes_name hk ht ws_nil
    · next name r hbody =>
      -- the name is complete, and what follows it is not a colon
      obtain ⟨hchars, rfl⟩ := stringBody_sound hbody
      obtain ⟨w, hw, hws⟩ := exists_ws_append_skipWs r
      obtain ⟨hrest, hkind⟩ := colon_fault h
      refine ⟨⟨'"' :: (name ++ ['"']) ++ w, [':'] ++ '0' :: closing c.stack, ?_, ?_⟩,
        fun heof => absurd heof hkind⟩
      · rw [hrest]
        simpa only [List.cons_append, List.append_assoc, List.nil_append] using
          congrArg (fun r => '"' :: (name ++ '"' :: r)) hws
      · rw [List.append_assoc, ← List.append_assoc w]
        exact completes_name hk ⟨hchars, rfl⟩ hw
  · cases h
    obtain ⟨text, htext⟩ := exists_completes hc
    exact cutOff_start htext nofun

theorem dispatch_fault (hc : c.WellFormed) {rest : Str} (hr : c.rest = first :: rest)
    (h : (c.dispatch first rest).1 = .failed f) :
    CutOff (Completes c) (ShortKeyword c f) c.rest f := by
  obtain ⟨text, htext⟩ := exists_completes hc
  revert h
  fun_cases dispatch c first rest with
  | case1 | case12 | case15 =>
    intro h
    cases h
    exact cutOff_start htext nofun
  | case2 hs => exact value_fault hc (.inl hs) hr
  | case3 hs => exact value_fault hc (.inr (.inl hs)) hr
  | case4 hs => exact value_fault hc (.inr (.inr (.inl hs))) hr
  | case6 hs => exact value_fault hc (.inr (.inr (.inr hs))) hr
  | case8 hs => exact key_fault hc (.inr hs) hr
  | case9 hs => exact key_fault hc (.inl hs) hr
  | _ =>
    intro h
    cases h

/-- **Where a step fails**, the text before the fault can be completed. A step
that finds the end of the input has read all of it, or it stands before a
keyword. -/
theorem step_fault (hc : c.WellFormed) (h : c.step = (.failed f, c')) :
    CutOff (Completes c) (ShortKeyword c f) c.rest f := by
  obtain ⟨w, hw, hrest⟩ := exists_ws_append_skipWs c.rest
  have hskipped : CutOff (Completes c) (ShortKeyword c f) (skipWs c.rest) f := by
    rw [step] at h
    generalize skipWs c.rest = s at h hrest ⊢
    cases s with
    | nil =>
      obtain ⟨text, htext⟩ := exists_completes hc
      simp only [stepAt] at h
      split at h
      · cases h
      · cases h
        exact cutOff_start htext fun _ => .inl rfl
    | cons first rest =>
      have hdispatch := dispatch_fault (c := ⟨c.state, c.stack, first :: rest⟩) hc rfl
        (congrArg Prod.fst h)
      refine ⟨hdispatch.text, fun hkind => (hdispatch.eof hkind).imp_right ?_⟩
      rintro ⟨hv, w', first', rest', word, hw', hr', hf⟩
      refine ⟨hv, w ++ w', first', rest', word, hw.append hw', ?_, hf⟩
      rw [List.append_assoc, ← hr']
      exact hrest
  rw [hrest]
  exact hskipped.after w fun t ht => ⟨[], by rw [List.append_nil]; exact ht.ws hw⟩

/-! ## what was read is read again -/

/-- The scan reads `text` between `c` and `d`, whatever follows it. Where a value should
come then, the text says so. -/
structure ReadsTo (c : Cfg) (text : Str) (d : Cfg) : Prop where
  rest_eq : c.rest = text ++ d.rest
  before : ∀ pre, (ExpectsValue c.state → beforeValue pre = true) →
    ExpectsValue d.state → beforeValue (pre ++ text) = true
  follows : ∀ r, Follows d r → Follows c (text ++ r)
  accepts_iff : ∀ r, Follows d r →
    (Accepts ⟨c.state, c.stack, text ++ r⟩ ↔ Accepts ⟨d.state, d.stack, r⟩)

namespace ReadsTo

theorem refl (c : Cfg) : ReadsTo c [] c :=
  ⟨rfl, fun pre h => by rwa [List.append_nil], fun _ h => h, fun _ _ => .rfl⟩

theorem trans (h : ReadsTo c text d) (h' : ReadsTo d text' e) : ReadsTo c (text ++ text') e where
  rest_eq := by rw [h.rest_eq, h'.rest_eq, List.append_assoc]
  before pre hpre := by
    rw [← List.append_assoc]
    exact h'.before _ (h.before pre hpre)
  follows r hr := by
    rw [List.append_assoc]
    exact h.follows _ (h'.follows r hr)
  accepts_iff r hr := by
    rw [List.append_assoc]
    exact (h.accepts_iff _ (h'.follows r hr)).trans (h'.accepts_iff r hr)

theorem ws (hw : Ws w) (h : ReadsTo ⟨c.state, c.stack, s⟩ text d) (hrest : c.rest = w ++ s) :
    ReadsTo c (w ++ text) d where
  rest_eq := by rw [hrest, List.append_assoc, ← h.rest_eq]
  before pre hpre := by
    rw [← List.append_assoc]
    exact h.before _ fun hv => beforeValue_append_ws (hpre hv) hw
  follows r hr hafter := by
    rw [List.append_assoc]
    exact delimited_ws hw (h.follows r hr hafter)
  accepts_iff r hr := by
    have htrace := trace_ws hw c.state c.stack (text ++ r)
    rw [List.append_assoc, Accepts, htrace]
    exact h.accepts_iff r hr

end ReadsTo

/-- A token that is no part of what follows a value. -/
theorem readsTo_of_trace (hc : ¬ AfterValue c.state) (tok : Token) (hrest : c.rest = text ++ d.rest)
    (hbefore : ExpectsValue d.state → ∀ pre, beforeValue (pre ++ text) = true)
    (htrace : ∀ r, Follows d r →
      trace ⟨c.state, c.stack, text ++ r⟩ = emit [tok] (trace ⟨d.state, d.stack, r⟩)) :
    ReadsTo c text d :=
  ⟨hrest, fun pre _ hv => hbefore hv pre, fun _ _ h => absurd h hc,
    fun r hr => accepts_congr (htrace r hr)⟩

theorem afterValue_after (stack : List Bool) : AfterValue (after stack) := by
  cases stack with
  | nil => exact .inl rfl
  | cons isArray stack => cases isArray <;> simp [after, AfterValue]

theorem not_expectsValue_after (stack : List Bool) : ¬ ExpectsValue (after stack) :=
  fun hv => not_afterValue_of_expectsValue hv (afterValue_after stack)

theorem scalar_reads (hv : ExpectsValue c.state) (hm : (c.scalar tok r).1.Continues)
    (hr : ∀ text rest, r = .ok (text, rest) → ∃ token, c.rest = token ++ rest ∧
      ∀ s, Delimited s → trace ⟨c.state, c.stack, token ++ s⟩ =
        emit [tok text] (trace (valueEnd c.stack s))) :
    ∃ text, ReadsTo c text (c.scalar tok r).2 := by
  cases r with
  | error f => exact hm.elim
  | ok p =>
    obtain ⟨token, hrest, htrace⟩ := hr p.1 p.2 rfl
    exact ⟨token, readsTo_of_trace (not_afterValue_of_expectsValue hv) (tok p.1) hrest
      (fun hv => absurd hv (not_expectsValue_after c.stack))
      fun s hs => htrace s (hs (afterValue_after c.stack))⟩

theorem value_reads (hv : ExpectsValue c.state) {rest : Str} (hr : c.rest = first :: rest)
    (hm : (c.value first rest).1.Continues) : ∃ text, ReadsTo c text (c.value first rest).2 := by
  have hopen (isArray : Bool) (hfirst : first = openChar isArray)
      (h : (c.openContainer isArray (firstState isArray) (startToken isArray) rest).1.Continues) :
      ∃ text, ReadsTo c text
        (c.openContainer isArray (firstState isArray) (startToken isArray) rest).2 := by
    unfold openContainer at h ⊢
    split at h
    · exact h.elim
    · next hdepth =>
      rw [if_neg hdepth]
      refine ⟨[openChar isArray], readsTo_of_trace (not_afterValue_of_expectsValue hv)
        (startToken isArray) (hfirst ▸ hr) (fun hv pre => ?_) fun r _ => ?_⟩
      · cases isArray
        · simp [ExpectsValue, firstState] at hv
        · simp [beforeValue, openChar]
      exact trace_open isArray hv (structural_of_ws ws_nil _) (Nat.lt_of_not_le hdepth)
  have hword {f : Char} {word : Str} {tok : Token} (hws : isWs f = false) (hne : f ≠ ']')
      (hvalue : ∀ s, value ⟨c.state, c.stack, f :: s⟩ f s =
        scalar ⟨c.state, c.stack, f :: s⟩ (fun _ => tok) (literal (f :: word) (f :: s)))
      (h : (c.scalar (fun _ => tok) (literal (f :: word) c.rest)).1.Continues) :
      ∃ text, ReadsTo c text (c.scalar (fun _ => tok) (literal (f :: word) c.rest)).2 :=
    scalar_reads hv h fun text rest hl =>
      ⟨f :: word, (literal_sound hl).2, fun s _ => trace_word hv hws hne hvalue⟩
  revert hm
  refine value_rule (P := fun r => r.1.Continues → ∃ text, ReadsTo c text r.2) c first rest
    (hopen false) (hopen true) ?_ ?_ ?_ ?_ ?_ False.elim
  · rintro rfl h
    refine scalar_reads hv h fun body rest' hbody => ?_
    obtain ⟨hchars, rfl⟩ := stringBody_sound hbody
    exact ⟨'"' :: (body ++ ['"']), by simp [hr], fun s _ => trace_string hv ⟨hchars, rfl⟩ s⟩
  · exact fun _ => hword (by decide) (by decide) fun _ => rfl
  · exact fun _ => hword (by decide) (by decide) fun _ => rfl
  · exact fun _ => hword (by decide) (by decide) fun _ => rfl
  · intro h
    exact scalar_reads hv h fun text rest' hnum =>
      ⟨text, computes_number.splits hnum, fun s hs => trace_number hv (number_sound hnum) hs⟩

theorem key_reads (hk : ExpectsKey c.state) {rest : Str} (hr : c.rest = first :: rest)
    (hm : (c.key first rest).1.Continues) : ∃ text, ReadsTo c text (c.key first rest).2 := by
  unfold key at hm ⊢
  split at hm
  · next hquote =>
    rw [if_pos hquote]
    split at hm
    · exact hm.elim
    · next name r hbody =>
      obtain ⟨hchars, rfl⟩ := stringBody_sound hbody
      obtain ⟨w, hw, hws⟩ := exists_ws_append_skipWs r
      generalize skipWs r = s at hm hws ⊢
      subst hws
      cases s with
      | nil => exact hm.elim
      | cons d rest =>
        simp only [colon] at hm ⊢
        split at hm
        · next hcolon =>
          rw [if_pos hcolon]
          refine ⟨'"' :: (name ++ ['"']) ++ (w ++ [':']), readsTo_of_trace
            (not_afterValue_of_expectsKey hk) (keyToken name) ?_ (fun _ pre => ?_) fun t _ => ?_⟩
          · simp [hr, hquote, hcolon]
          · rw [← List.append_assoc, ← List.append_assoc, beforeValue, List.getLast?_concat]
            rfl
          · rw [List.append_assoc]
            exact trace_name hk ⟨hchars, rfl⟩ (structural_of_ws hw ':')
        · exact hm.elim
  · exact hm.elim

/-- A comma or a closing bracket. -/
theorem readsTo_mark (hmark : mark = ',' ∨ mark = ']' ∨ mark = '}') (toks : List Token)
    (hbefore : ExpectsValue d.state → mark = ',') (hrest : c.rest = mark :: d.rest)
    (htrace : ∀ r, trace ⟨c.state, c.stack, [mark] ++ r⟩ =
      emit toks (trace ⟨d.state, d.stack, r⟩)) :
    ReadsTo c [mark] d where
  rest_eq := hrest
  before pre _ hv := by simp [beforeValue, hbefore hv]
  follows _ _ _ := delimited_structural (structural_of_ws ws_nil mark) hmark
  accepts_iff r _ := accepts_congr (htrace r)

theorem dispatch_reads (hc : c.WellFormed) {rest : Str} (hr : c.rest = first :: rest)
    (hm : (c.dispatch first rest).1.Continues) :
    ∃ text, ReadsTo c text (c.dispatch first rest).2 := by
  have hcomma (isArray : Bool) (hs : c.state = commaState isArray) (hfirst : first = ',') :
      ∃ text, ReadsTo c text ⟨nextState isArray, c.stack, rest⟩ := by
    refine ⟨_, readsTo_mark (.inl rfl) [] (fun _ => rfl) (hfirst ▸ hr) fun r => ?_⟩
    rw [hs]
    exact trace_comma isArray c.stack (structural_of_ws ws_nil ',')
  have hclose (isArray : Bool) (hs : c.state = firstState isArray ∨ c.state = commaState isArray)
      (hfirst : first = closeChar isArray) :
      ∃ text, ReadsTo c text (c.close (endToken isArray) rest).2 := by
    have hstack : c.stack.head? = some isArray := by
      rcases hs with hs | hs <;> rw [WellFormed, hs] at hc <;> cases isArray <;> exact hc
    obtain ⟨stack, hstack⟩ := List.head?_eq_some_iff.mp hstack
    have hmark : closeChar isArray = ',' ∨ closeChar isArray = ']' ∨ closeChar isArray = '}' := by
      cases isArray <;> simp [closeChar]
    refine ⟨_, readsTo_mark hmark [endToken isArray]
      (fun hv => absurd hv (not_expectsValue_after c.stack.tail)) (hfirst ▸ hr) fun r => ?_⟩
    rw [close, hstack]
    exact trace_close isArray hs (structural_of_ws ws_nil _)
  revert hm
  fun_cases dispatch c first rest with
  | case2 hs => exact value_reads (.inl hs) hr
  | case3 hs => exact value_reads (.inr (.inl hs)) hr
  | case4 hs => exact value_reads (.inr (.inr (.inl hs))) hr
  | case5 hs hfirst => exact fun _ => hclose true (.inl hs) hfirst
  | case6 hs => exact value_reads (.inr (.inr (.inr hs))) hr
  | case7 hs hfirst => exact fun _ => hclose false (.inl hs) hfirst
  | case8 hs => exact key_reads (.inr hs) hr
  | case9 hs => exact key_reads (.inl hs) hr
  | case10 hs hfirst => exact fun _ => hcomma false hs hfirst
  | case11 hs _ hfirst => exact fun _ => hclose false (.inr hs) hfirst
  | case13 hs hfirst => exact fun _ => hcomma true hs hfirst
  | case14 hs _ hfirst => exact fun _ => hclose true (.inr hs) hfirst
  | _ =>
    intro h
    cases h

/-- **What a step reads** is read whatever follows it. -/
theorem step_reads (hc : c.WellFormed) (h : c.step = (m, c')) (hm : m.Continues) :
    ∃ text, ReadsTo c text c' := by
  rw [step] at h
  obtain ⟨w, hw, hrest⟩ := exists_ws_append_skipWs c.rest
  generalize skipWs c.rest = s at h hrest
  cases s with
  | nil =>
    simp only [stepAt] at h
    split at h <;> cases h <;> exact hm.elim
  | cons first rest =>
    have hd : dispatch ⟨c.state, c.stack, first :: rest⟩ first rest = (m, c') := h
    obtain ⟨text, htext⟩ := dispatch_reads (c := ⟨c.state, c.stack, first :: rest⟩) hc rfl
      (by rw [hd]; exact hm)
    rw [hd] at htext
    exact ⟨w ++ text, htext.ws hw hrest⟩

theorem wellFormed_step {c c' : Cfg} (hc : c.WellFormed) (h : c.step = (m, c')) :
    c'.WellFormed := by
  have hmoves := c.step_moves
  rw [h] at hmoves
  exact hmoves.wellFormed hc

/-- A scan that fails reads some text, and then fails in one step. -/
theorem exists_readsTo_fault (hc : c.WellFormed) (h : c.trace.2 = .error f) :
    ∃ text d d', ReadsTo c text d ∧ d.WellFormed ∧ d.step = (.failed f, d') := by
  fun_induction Cfg.trace c with
  | case1 => cases h
  | case2 c g c' hs =>
    cases h
    exact ⟨[], c, c', .refl c, hc, hs⟩
  | case3 c c' hs ih | case4 c tok c' hs ih =>
    obtain ⟨text, htext⟩ := step_reads hc hs trivial
    obtain ⟨text', d, d', hd, hrest⟩ := ih (wellFormed_step hc hs) h
    exact ⟨text ++ text', d, d', htext.trans hd, hrest⟩

/-- The text before the fault can be completed. -/
theorem exists_accepts {c : Cfg} (hc : c.WellFormed) (h : c.trace.2 = .error f) :
    ∃ pre more, c.rest = pre ++ f.rest ∧ Accepts ⟨c.state, c.stack, pre ++ more⟩ := by
  obtain ⟨text, d, d', hreads, hd, hstep⟩ := exists_readsTo_fault hc h
  obtain ⟨pre, more, hpre, haccepts⟩ := (step_fault hd hstep).text
  refine ⟨text ++ pre, more, by rw [hreads.rest_eq, hpre, List.append_assoc], ?_⟩
  rw [List.append_assoc]
  exact (hreads.accepts_iff _ haccepts.2).mpr haccepts.1

end Cfg

/-! ## rejected documents -/

theorem uninterrupted_finished_iff (input : Str) :
    (uninterrupted input).2 = .finished ↔ Accepts ⟨.start, [], input⟩ := by
  rw [uninterrupted_eq, accepts_start_iff, ← Tokenizer.trace_new_ok_iff]
  cases (Tokenizer.new input).trace.2 with
  | ok => exact iff_of_true rfl rfl
  | error e => constructor <;> intro h <;> cases h

/-- The fault of the machine for a reported error. -/
theorem exists_fault_of_failed (h : (uninterrupted input).2 = .failed e) :
    ∃ f : Fault, (Cfg.trace ⟨.start, [], input⟩).2 = .error f ∧ e = f.error input := by
  rw [uninterrupted_eq, (Refines.new input).trace_eq] at h
  generalize (Cfg.trace ⟨.start, [], input⟩).2 = r at h ⊢
  cases r with
  | ok => cases h
  | error f =>
    cases h
    exact ⟨f, rfl, rfl⟩

/-- An error of any `drive` call is that of the uninterrupted scan. -/
theorem uninterrupted_of_failed (hs : shown ∈ session ds (Tokenizer.new input))
    (he : shown.outcome = .failed e) : (uninterrupted input).2 = .failed e := by
  obtain ⟨i, hi⟩ := List.mem_iff_getElem?.mp hs
  have hresumes := (Between.new input).resumes rfl ds hi
  rw [hresumes.ended (by rw [he]; exact nofun)]
  exact he

/-- **Errors point at viable text.** The offset of every reported error is in
the document and between two characters, and the text before it begins a
document that is accepted. -/
theorem error_offset_viable (input : Str) (ds : List DriveCall) (shown : Shown)
    (hs : shown ∈ session ds (Tokenizer.new input)) (e : Error) (he : shown.outcome = .failed e) :
    e.offset ≤ input.len ∧ ∃ pre rest more, input.splitAt? e.offset = some (pre, rest) ∧
        (uninterrupted (pre ++ more)).2 = .finished := by
  obtain ⟨f, hf, rfl⟩ := exists_fault_of_failed (uninterrupted_of_failed hs he)
  obtain ⟨pre, more, hinput, haccepts⟩ := Cfg.exists_accepts (c := ⟨.start, [], input⟩) rfl hf
  obtain rfl : input = pre ++ f.rest := hinput
  have hoffset : (f.error (pre ++ f.rest)).offset = pre.len := offsetOf_append pre f.rest
  rw [hoffset]
  refine ⟨by rw [len_append]; omega, pre, f.rest, more, splitAt?_append pre f.rest, ?_⟩
  exact (uninterrupted_finished_iff _).mpr haccepts

/-- A `drive` call on a document of which the first token is wrong. -/
theorem observe_failed (d : DriveCall) (h : Cfg.step ⟨.start, [], input⟩ = (.failed f, c)) :
    (d.observe (Tokenizer.new input)).outcome = .failed (f.error input) := by
  have hstep : (Tokenizer.new input).step.1 = .failed (f.error input) := by
    have hagree := (Refines.new input).step.1
    rw [h] at hagree
    exact hagree
  have hrun := Tokenizer.run_failed (Prod.ext hstep rfl) d.visitor.logged (d.state, [])
  rw [d.observe_eq rfl hrun]
  rfl

/-- A string with an escape sequence that is cut off: the error points at the
escape sequence. -/
theorem error_offset_viable_escape :
    ∃ pre rest more, Str.splitAt? ['"', 'é', '\\', 'u', '1'] 3 = some (pre, rest) ∧
      (uninterrupted (pre ++ more)).2 = .finished := by
  have hfailed := observe_failed ⟨List Token, Unit, Tokenizer.recorder, []⟩
    (show Cfg.step ⟨.start, [], ['"', 'é', '\\', 'u', '1']⟩ = (.failed ⟨.invalidEscape, _⟩, _)
      from rfl)
  exact (error_offset_viable _ [_] _ (.head _) _ hfailed).2

/-! ## the end of the input -/

theorem keywords_unique : ∀ a ∈ keywords, ∀ b ∈ keywords, a.head? = b.head? → a = b := by
  decide

namespace Cfg

/-- Before a keyword, the input can be completed exactly if it is the
beginning of the keyword. -/
theorem ShortKeyword.completes_iff (h : ShortKeyword c f) :
    (∃ more, Accepts ⟨c.state, c.stack, c.rest ++ more⟩) ↔ ∃ word ∈ keywords, f.rest <+: word := by
  obtain ⟨hv, w, first, rest, word, hw, hrest, hf, hkey, hlen⟩ := h
  obtain ⟨tok, hvalue⟩ := hkey.value_eq
  rw [hf]
  constructor
  · rintro ⟨more, haccepts⟩
    refine ⟨first :: word, hkey.mem, ?_⟩
    rw [hrest, List.append_assoc, Accepts, trace_ws hw, ← Accepts] at haccepts
    have hstep : step ⟨c.state, c.stack, first :: (rest ++ more)⟩ = _ :=
      (step_value hv (skipWs_cons_of_not hkey.isWs_first _) hkey.ne_bracket).trans (hvalue _ _ _)
    cases hl : literal (first :: word) (first :: (rest ++ more)) with
    | error g =>
      rw [hl] at hstep
      exact (not_accepts_failed haccepts hstep).elim
    | ok p =>
      have hprefix : first :: word <+: first :: rest ++ more := ⟨p.2, (literal_sound hl).2.symm⟩
      rcases List.prefix_or_prefix_of_prefix (List.prefix_append _ more) hprefix with h | ⟨t, ht⟩
      · exact h
      · rw [← ht, len_append] at hlen
        omega
  · rintro ⟨word', hmem, more, hmore⟩
    obtain rfl : word' = first :: word :=
      keywords_unique word' hmem (first :: word) hkey.mem (by rw [← hmore]; rfl)
    have hcompletes := completes_value hv (trace_word hv hkey.isWs_first hkey.ne_bracket
      (hvalue c.state c.stack))
    refine ⟨more ++ closing c.stack, ?_⟩
    rw [hrest, List.append_assoc, ← List.append_assoc (first :: rest), hmore]
    exact (hcompletes.ws hw).1

end Cfg

/-- A document that is rejected at its end can be completed exactly if what
is left is the beginning of a keyword. -/
theorem eof_completes_iff (hf : (Cfg.trace ⟨.start, [], input⟩).2 = .error f)
    (hkind : f.kind = .unexpectedEof) :
    (∃ more, Accepts ⟨.start, [], input ++ more⟩) ↔ ∃ word ∈ keywords, f.rest <+: word := by
  obtain ⟨text, d, d', hreads, hd, hstep⟩ :=
    Cfg.exists_readsTo_fault (c := ⟨.start, [], input⟩) rfl hf
  rcases (Cfg.step_fault hd hstep).eof hkind with hnil | hshort
  · obtain ⟨pre, more, hinput, haccepts⟩ := Cfg.exists_accepts (c := ⟨.start, [], input⟩) rfl hf
    obtain rfl : input = pre := by rw [← List.append_nil pre, ← hnil]; exact hinput
    rw [hnil]
    exact ⟨fun _ => ⟨_, .head _, List.nil_prefix⟩, fun _ => ⟨more, haccepts⟩⟩
  · have hrest : input = text ++ d.rest := hreads.rest_eq
    rw [← hshort.completes_iff, hrest]
    simp only [List.append_assoc]
    have hiff (more : Str) := hreads.accepts_iff (d.rest ++ more) fun h =>
      absurd h (Cfg.not_afterValue_of_expectsValue hshort.1)
    exact exists_congr hiff

/-- The input ends in text that stands where a value may be, starts like a keyword and is
shorter, and is not the beginning of the keyword. -/
def endsInBadKeyword (input : Str) : Bool :=
  (List.range (input.length + 1)).any fun i => beforeValue (input.take i) &&
    keywords.any fun word =>
    (input.drop i).head? == word.head? && decide (len (input.drop i) < len word) &&
      !(input.drop i).isPrefixOf word

/-- What is left of a document that is rejected at its end. -/
theorem eof_rest (hf : (Cfg.trace ⟨.start, [], input⟩).2 = .error f)
    (hkind : f.kind = .unexpectedEof) (hbad : endsInBadKeyword input = false) :
    ∃ word ∈ keywords, f.rest <+: word := by
  obtain ⟨text, d, d', hreads, hwf, hstep⟩ :=
    Cfg.exists_readsTo_fault (c := ⟨.start, [], input⟩) rfl hf
  rcases (Cfg.step_fault hwf hstep).eof hkind with
    hnil | ⟨hv, w, first, rest, word, hw, hd, hrest, hkey, hlen⟩
  · exact ⟨_, .head _, hnil ▸ List.nil_prefix⟩
  · have hbefore : beforeValue (text ++ w) = true :=
      beforeValue_append_ws (hreads.before [] (fun _ => rfl) hv) hw
    have hinput : input = (text ++ w) ++ f.rest := by
      rw [List.append_assoc, hrest, ← hd]
      exact hreads.rest_eq
    refine ⟨first :: word, hkey.mem, ?_⟩
    have hlength : (text ++ w).length < input.length + 1 := by
      rw [hinput, @List.length_append _ (text ++ w)]
      omega
    have hall := List.any_eq_false.mp hbad _ (List.mem_range.mpr hlength)
    rw [hinput, List.take_left, List.drop_left, hbefore, Bool.true_and] at hall
    have hword := List.any_eq_false.mp (Bool.eq_false_iff.mpr hall) _ hkey.mem
    rw [hrest, decide_eq_true hlen] at hword
    simpa [hrest] using hword

end Kimojio.Json
