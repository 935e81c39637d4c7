import Kimojio.Json.Trace

/-!
# Kimojio.Json.Grammar

The scan accepts exactly the RFC 8259 texts that nest at most `maxDepth`
containers, and reports exactly the tokens of the parse tree.

The machine of `Kimojio.Json.Machine` is compared with the grammar in both
directions, for a value in any context: `trace_value` runs it over the text
of a value (completeness), and `reads` reads a value off an accepting
scan (soundness). The context is the stack of open containers on one side
and the text that follows on the other, so both are proved by recursion over
the value, or over what is left of the text, without looking at the bitmap or
at offsets again.
-/

namespace Kimojio.Json

open Rfc8259
open Str Cfg

/-! ## the tokens of a value -/

mutual
/-- The visitor calls for a value, in document order. -/
def tokensOf : Value → List Token
  | .null => [.null]
  | .boolean value => [.boolean value]
  | .number text => [.number text]
  | .string body => [stringToken body]
  | .array vs => .arrayStart :: (tokensOfElements vs ++ [.arrayEnd])
  | .object ms => .objectStart :: (tokensOfMembers ms ++ [.objectEnd])

/-- The visitor calls for the elements of an array. -/
def tokensOfElements : List Value → List Token
  | [] => []
  | v :: vs => tokensOf v ++ tokensOfElements vs

/-- The visitor calls for the members of an object. -/
def tokensOfMembers : List (List Char × Value) → List Token
  | [] => []
  | (k, v) :: ms => keyToken k :: (tokensOf v ++ tokensOfMembers ms)
end

theorem tokensOfElements_eq (vs : List Value) : tokensOfElements vs = vs.flatMap tokensOf := by
  induction vs with
  | nil => rfl
  | cons v vs ih => rw [tokensOfElements, ih, List.flatMap_cons]

theorem tokensOfMembers_eq (ms : List (List Char × Value)) :
    tokensOfMembers ms = ms.flatMap fun m => keyToken m.1 :: tokensOf m.2 := by
  induction ms with
  | nil => rfl
  | cons m ms ih => rw [tokensOfMembers, ih, List.flatMap_cons, List.cons_append]

/-! ### what arrays and objects differ in -/

def openChar : Bool → Char
  | true => '['
  | false => '{'

def closeChar : Bool → Char
  | true => ']'
  | false => '}'

def startToken : Bool → Token
  | true => .arrayStart
  | false => .objectStart

def endToken : Bool → Token
  | true => .arrayEnd
  | false => .objectEnd

/-- The state after the opening bracket. -/
def firstState : Bool → State
  | true => .arrayFirstValue
  | false => .objectFirstKey

/-- The state after a comma. -/
def nextState : Bool → State
  | true => .arrayNextValue
  | false => .objectNextKey

/-- The state after an element or a member. -/
def commaState : Bool → State
  | true => .arrayComma
  | false => .objectComma

theorem isWs_openChar (isArray : Bool) : isWs (openChar isArray) = false := by
  cases isArray <;> decide

theorem isWs_closeChar (isArray : Bool) : isWs (closeChar isArray) = false := by
  cases isArray <;> decide

/-- The state in which the first item, or one after a comma, starts. -/
def itemState (isArray first : Bool) : State :=
  if first then firstState isArray else nextState isArray

/-- The state in which the value of an item starts. -/
def valueState : Bool → Bool → State
  | true, first => itemState true first
  | false, _ => .objectValue

/-- The calls for the name of an item. -/
def nameTokens : Bool → Str → List Token
  | true, _ => []
  | false, k => [keyToken k]

/-- The calls for the items of a container. -/
def tokensOfItems (isArray : Bool) : List (Str × Value) → List Token
  | [] => []
  | (k, v) :: items => nameTokens isArray k ++ (tokensOf v ++ tokensOfItems isArray items)

/-- What stands before the value of an item: the name in an object, nothing in an array. -/
def DerivesName : Bool → Str → Str → Prop
  | true, _, s => s = []
  | false, k, s => ∃ n m, IsString k n ∧ Structural ':' m ∧ s = n ++ m

/-- The items after the first. -/
def DerivesMore (isArray : Bool) : List (Str × Value) → Str → Prop
  | [], s => s = []
  | (k, v) :: items, s => ∃ l n a b, Structural ',' l ∧ DerivesName isArray k n ∧ Derives v a ∧
      DerivesMore isArray items b ∧ s = l ++ (n ++ (a ++ b))

def DerivesItems (isArray : Bool) : List (Str × Value) → Str → Prop
  | [], s => s = []
  | (k, v) :: items, s => ∃ n a b, DerivesName isArray k n ∧ Derives v a ∧
      DerivesMore isArray items b ∧ s = n ++ (a ++ b)

/-- The value that consists of these items. -/
def container : Bool → List (Str × Value) → Value
  | true, items => .array (items.map Prod.snd)
  | false, items => .object items

variable {isArray first : Bool} {items : List (Str × Value)} {k m s : Str} {v : Value}
  {state : State} {stack : List Bool}

theorem expectsValue_valueState : ExpectsValue (valueState isArray first) := by
  cases isArray <;> cases first <;> simp [valueState, itemState, firstState, nextState,
    ExpectsValue]

theorem derivesMore_array :
    DerivesMore true items s ↔ DerivesMoreElements (items.map Prod.snd) s := by
  induction items generalizing s with
  | nil => rw [DerivesMore, List.map_nil, DerivesMoreElements]
  | cons item items ih => simp [DerivesMore, DerivesMoreElements, DerivesName, ih]

theorem derivesMore_object : DerivesMore false items s ↔ DerivesMoreMembers items s := by
  induction items generalizing s with
  | nil => rw [DerivesMore, DerivesMoreMembers]
  | cons item items ih =>
    constructor
    · rintro ⟨l, _, a, b, hl, ⟨n, m, hn, hm, rfl⟩, ha, hb, rfl⟩
      exact ⟨l, n, m, a, b, hl, hn, hm, ha, ih.mp hb, by simp⟩
    · rintro ⟨l, n, m, a, b, hl, hn, hm, ha, hb, rfl⟩
      exact ⟨l, n ++ m, a, b, hl, ⟨n, m, hn, hm, rfl⟩, ha, ih.mpr hb, by simp⟩

theorem derivesItems_array :
    DerivesItems true items s ↔ DerivesElements (items.map Prod.snd) s := by
  cases items <;> simp [DerivesItems, DerivesElements, DerivesName, derivesMore_array]

theorem derivesItems_object : DerivesItems false items s ↔ DerivesMembers items s := by
  cases items with
  | nil => rw [DerivesItems, DerivesMembers]
  | cons item items =>
    constructor
    · rintro ⟨_, a, b, ⟨n, m, hn, hm, rfl⟩, ha, hb, rfl⟩
      exact ⟨n, m, a, b, hn, hm, ha, derivesMore_object.mp hb, by simp⟩
    · rintro ⟨n, m, a, b, hn, hm, ha, hb, rfl⟩
      exact ⟨n ++ m, a, b, ⟨n, m, hn, hm, rfl⟩, ha, derivesMore_object.mpr hb, by simp⟩

theorem derives_container : Derives (container isArray items) s ↔
    ∃ o m c, Structural (openChar isArray) o ∧ DerivesItems isArray items m ∧
      Structural (closeChar isArray) c ∧ s = o ++ (m ++ c) := by
  cases isArray with
  | true => simp only [container, Derives, derivesItems_array, openChar, closeChar]
  | false => simp only [container, Derives, derivesItems_object, openChar, closeChar]

theorem depth_container : (container isArray items).depth = Value.depthMembers items + 1 := by
  have hmap : Value.depthElements (items.map Prod.snd) = Value.depthMembers items := by
    induction items with
    | nil => rfl
    | cons item items ih => rw [List.map_cons, Value.depthElements, Value.depthMembers, ih]
  cases isArray with
  | true => rw [container, Value.depth, hmap]
  | false => rw [container, Value.depth]

theorem tokensOf_container : tokensOf (container isArray items) =
    startToken isArray :: (tokensOfItems isArray items ++ [endToken isArray]) := by
  cases isArray with
  | true =>
    have hitems : tokensOfElements (items.map Prod.snd) = tokensOfItems true items := by
      induction items with
      | nil => rfl
      | cons item items ih => rw [List.map_cons, tokensOfElements, ih]; rfl
    rw [container, tokensOf, hitems]
    rfl
  | false =>
    have hitems : tokensOfMembers items = tokensOfItems false items := by
      induction items with
      | nil => rfl
      | cons item items ih => rw [tokensOfMembers, ih]; rfl
    rw [container, tokensOf, hitems]
    rfl

/-- Induction over values, with one case for both containers. -/
theorem container_induction {P : Value → Prop} (null : P .null)
    (boolean : ∀ value, P (.boolean value)) (number : ∀ text, P (.number text))
    (string : ∀ body, P (.string body))
    (container : ∀ isArray items, (∀ item ∈ items, P item.2) → P (container isArray items))
    (v : Value) : P v := by
  induction v using Value.induction with
  | null => exact null
  | boolean value => exact boolean value
  | number text => exact number text
  | string body => exact string body
  | array vs h =>
    have hitems := container true (vs.map fun v => ([], v)) (by simpa using h)
    simpa [Json.container, List.map_map, Function.comp_def] using hitems
  | object ms h => exact container false ms h

/-! ## steps of the machine on text of the grammar -/

/-- What follows a value: the end of the text, white space, or a structural
character that can stand there. -/
def Delimited (r : Str) : Prop :=
  ∀ c ∈ r.head?, isWs c = true ∨ c = ',' ∨ c = ']' ∨ c = '}'

theorem Delimited.numberEnd (h : Delimited r) : NumberEnd r := by
  intro c hc
  have hcases := h c hc
  simp only [isWs, Bool.or_eq_true, decide_eq_true_eq] at hcases
  rcases hcases with (((rfl | rfl) | rfl) | rfl) | rfl | rfl | rfl <;> decide

theorem delimited_nil : Delimited [] := by simp [Delimited]

theorem delimited_ws (hw : Ws w) (hr : Delimited r) : Delimited (w ++ r) := by
  cases w with
  | nil => exact hr
  | cons d w =>
    intro c hc
    obtain rfl : d = c := by simpa using hc
    exact .inl (hw d (by simp))

theorem delimited_structural (hs : Structural c s) (hc : c = ',' ∨ c = ']' ∨ c = '}') :
    Delimited (s ++ r) := by
  obtain ⟨w₁, w₂, hw₁, -, rfl⟩ := hs
  rw [List.append_assoc]
  refine delimited_ws hw₁ fun d hd => ?_
  obtain rfl : c = d := by simpa using hd
  exact .inr hc

theorem delimited_more (hm : DerivesMore isArray items m) (hc : Structural (closeChar isArray) c) :
    Delimited (m ++ (c ++ r)) := by
  cases items with
  | nil =>
    rw [hm, List.nil_append]
    exact delimited_structural hc (by cases isArray <;> simp [closeChar])
  | cons item items =>
    obtain ⟨l, n, a, b, hl, -, -, -, rfl⟩ := hm
    rw [List.append_assoc]
    exact delimited_structural hl (by simp)

/-- White space in front does not matter. -/
theorem step_ws (hw : Ws w) (state : State) (stack : List Bool) (s : Str) :
    step ⟨state, stack, w ++ s⟩ = step ⟨state, stack, s⟩ := by
  simp only [step, skipWs_append hw]
  cases skipWs s <;> rfl

theorem trace_ws (hw : Ws w) (state : State) (stack : List Bool) (s : Str) :
    trace ⟨state, stack, w ++ s⟩ = trace ⟨state, stack, s⟩ := by
  rw [trace, trace.eq_def ⟨state, stack, s⟩, step_ws hw]

/-- A structural character, seen through the white space before it. -/
theorem skipWs_structural (hw : Ws w) (hc : isWs c = false) : skipWs (w ++ c :: s) = c :: s := by
  rw [skipWs_append hw, skipWs_cons, hc]
  rfl

theorem skipWs_cons_of_not (hc : isWs c = false) (s : Str) : skipWs (c :: s) = c :: s := by
  rw [skipWs_cons, hc]
  rfl

theorem step_value {s rest : Str} {first : Char} (hv : ExpectsValue state)
    (hs : skipWs s = first :: rest) (hne : first ≠ ']') :
    step ⟨state, stack, s⟩ = value ⟨state, stack, first :: rest⟩ first rest := by
  simp only [step, hs, stepAt, dispatch]
  rcases hv with rfl | rfl | rfl | rfl
  · rfl
  · rfl
  · rfl
  · exact if_neg hne

theorem step_key {s rest : Str} {first : Char} (hk : ExpectsKey state)
    (hs : skipWs s = first :: rest) (hne : first ≠ '}') :
    step ⟨state, stack, s⟩ = key ⟨state, stack, first :: rest⟩ first rest := by
  simp only [step, hs, stepAt, dispatch]
  rcases hk with rfl | rfl
  · rfl
  · exact if_neg hne

/-! ## completeness -/

theorem trace_open (isArray : Bool) (hv : ExpectsValue state)
    (ho : Structural (openChar isArray) o) (hd : stack.length < maxDepth) :
    trace ⟨state, stack, o ++ s⟩ =
      emit [startToken isArray] (trace ⟨firstState isArray, isArray :: stack, s⟩) := by
  obtain ⟨w₁, w₂, hw₁, hw₂, rfl⟩ := ho
  have hskip := skipWs_structural (s := w₂ ++ s) hw₁ (isWs_openChar isArray)
  have hstep : step ⟨state, stack, w₁ ++ openChar isArray :: w₂ ++ s⟩ =
      (.token (startToken isArray), ⟨firstState isArray, isArray :: stack, w₂ ++ s⟩) := by
    rw [List.append_assoc, List.cons_append, step_value hv hskip (by cases isArray <;> decide)]
    cases isArray <;> simp [value, Cfg.openContainer, Nat.not_le.mpr hd, openChar, startToken,
      firstState]
  rw [trace_token hstep, trace_ws hw₂]

theorem trace_close (isArray : Bool) (hst : state = firstState isArray ∨ state = commaState isArray)
    (he : Structural (closeChar isArray) e) :
    trace ⟨state, isArray :: stack, e ++ s⟩ =
      emit [endToken isArray] (trace (valueEnd stack s)) := by
  obtain ⟨w₁, w₂, hw₁, hw₂, rfl⟩ := he
  have hskip := skipWs_structural (s := w₂ ++ s) hw₁ (isWs_closeChar isArray)
  have hstep : step ⟨state, isArray :: stack, w₁ ++ closeChar isArray :: w₂ ++ s⟩ =
      (.token (endToken isArray), valueEnd stack (w₂ ++ s)) := by
    rw [List.append_assoc, List.cons_append]
    simp only [step, hskip, stepAt, dispatch]
    rcases hst with rfl | rfl <;> cases isArray <;> rfl
  rw [trace_token hstep, valueEnd, trace_ws hw₂]
  rfl

/-- The comma between two elements or members. -/
theorem trace_comma (isArray : Bool) (stack : List Bool) (hm : Structural ',' m) :
    trace ⟨commaState isArray, stack, m ++ s⟩ = trace ⟨nextState isArray, stack, s⟩ := by
  obtain ⟨w₁, w₂, hw₁, hw₂, rfl⟩ := hm
  have hskip := skipWs_structural (s := w₂ ++ s) hw₁ (show isWs ',' = false by decide)
  have hstep : step ⟨commaState isArray, stack, w₁ ++ ',' :: w₂ ++ s⟩ =
      (.silent, ⟨nextState isArray, stack, w₂ ++ s⟩) := by
    rw [List.append_assoc, List.cons_append]
    simp only [step, hskip, stepAt, dispatch]
    cases isArray <;> rfl
  rw [trace_silent hstep, trace_ws hw₂]

theorem trace_name (hk : ExpectsKey state) (hn : IsString k n)
    (hm : Structural ':' m) :
    trace ⟨state, stack, n ++ (m ++ s)⟩ = emit [keyToken k] (trace ⟨.objectValue, stack, s⟩) := by
  obtain ⟨hchars, rfl⟩ := hn
  obtain ⟨w₁, w₂, hw₁, hw₂, rfl⟩ := hm
  have hbody := stringBody_complete hchars (w₁ ++ ':' :: w₂ ++ s)
  have hskip : skipWs (w₁ ++ ':' :: w₂ ++ s) = ':' :: (w₂ ++ s) := by
    rw [List.append_assoc, List.cons_append]
    exact skipWs_structural hw₁ (by decide)
  have hstep : step ⟨state, stack, '"' :: (k ++ ['"']) ++ (w₁ ++ ':' :: w₂ ++ s)⟩ =
      (.token (keyToken k), ⟨.objectValue, stack, w₂ ++ s⟩) := by
    rw [List.cons_append, List.append_assoc, List.cons_append, List.nil_append,
      step_key hk (skipWs_cons_of_not (by decide) _) (by decide)]
    simp only [Cfg.key, if_true, hbody, hskip, colon]
  rw [trace_token hstep, trace_ws hw₂]

theorem trace_scalar (hv : ExpectsValue state) {s r rest : Str} {first : Char}
    (hs : s = first :: rest) (hws : isWs first = false) (hne : first ≠ ']')
    (h : value ⟨state, stack, s⟩ first rest = (.token tok, valueEnd stack r)) :
    trace ⟨state, stack, s⟩ = emit [tok] (trace (valueEnd stack r)) := by
  subst hs
  exact trace_token ((step_value hv (skipWs_cons_of_not hws rest) hne).trans h)

theorem number_first (ht : Number t) : ∃ d ds, t = d :: ds ∧ (d = '-' ∨ isDigit d = true) := by
  obtain ⟨sg, i, f, e, hsg, hi, -, -, rfl⟩ := ht
  rcases hsg with rfl | rfl
  · rcases hi with rfl | ⟨d, ds, hd, -, rfl⟩
    · exact ⟨'0', _, rfl, .inr (by decide)⟩
    · refine ⟨d, _, rfl, .inr ?_⟩
      simp only [isDigit19, isDigit, Bool.and_eq_true, decide_eq_true_eq] at hd ⊢
      exact ⟨Nat.le_trans (by decide : '0'.toNat ≤ '1'.toNat) hd.1, hd.2⟩
  · exact ⟨'-', _, rfl, .inl rfl⟩

theorem trace_number (hv : ExpectsValue state) (ht : Number t) (hr : Delimited r) :
    trace ⟨state, stack, t ++ r⟩ = emit [.number t] (trace (valueEnd stack r)) := by
  obtain ⟨d, ds, hcons, hd⟩ := number_first ht
  have hchar : ∀ e : Char, e ≠ '-' → isDigit e = false → d ≠ e := by
    rintro e he hdig rfl
    rcases hd with h | h
    · exact he h
    · rw [hdig] at h; cases h
  have hws : isWs d = false := by
    simp only [isWs, Bool.or_eq_false_iff, decide_eq_false_iff_not]
    exact ⟨⟨⟨hchar _ (by decide) (by decide), hchar _ (by decide) (by decide)⟩,
      hchar _ (by decide) (by decide)⟩, hchar _ (by decide) (by decide)⟩
  refine trace_scalar hv (by rw [hcons]; rfl) hws (hchar _ (by decide) (by decide)) ?_
  rw [value, if_neg (hchar _ (by decide) (by decide)), if_neg (hchar _ (by decide) (by decide)),
    if_neg (hchar _ (by decide) (by decide)), if_neg (hchar _ (by decide) (by decide)),
    if_neg (hchar _ (by decide) (by decide)), if_neg (hchar _ (by decide) (by decide)), if_pos hd,
    number_complete ht hr.numberEnd]
  rfl

theorem trace_string (hv : ExpectsValue state) (hs : IsString b s) (r : Str) :
    trace ⟨state, stack, s ++ r⟩ = emit [stringToken b] (trace (valueEnd stack r)) := by
  obtain ⟨hchars, rfl⟩ := hs
  have hbody := stringBody_complete hchars r
  refine trace_scalar hv rfl (by decide) (by decide) ?_
  simp [value, hbody, scalar]

theorem trace_word (hv : ExpectsValue state) {first : Char}
    (hws : isWs first = false) (hne : first ≠ ']')
    (hvalue : ∀ s, value ⟨state, stack, first :: s⟩ first s =
      scalar ⟨state, stack, first :: s⟩ (fun _ => tok) (literal (first :: word) (first :: s))) :
    trace ⟨state, stack, first :: word ++ r⟩ = emit [tok] (trace (valueEnd stack r)) := by
  have hword := literal_complete (first :: word) r
  rw [List.cons_append] at hword ⊢
  refine trace_scalar hv rfl hws hne ?_
  rw [hvalue, hword]
  rfl

/-! ### text that nests too deep -/

/-- The scan from `c` fails inside `maxDepth` containers, after a first part of
the calls `toks`. -/
def Stuck (c : Cfg) (toks : List Token) : Prop :=
  ∃ p f, p <+: toks ∧ c.trace = (p, .error f) ∧ c.stack.length + opened p = closed p + maxDepth

theorem Stuck.append (h : Stuck c toks) (more : List Token) : Stuck c (toks ++ more) := by
  obtain ⟨p, f, hp, ht⟩ := h
  exact ⟨p, f, hp.trans (List.prefix_append _ _), ht⟩

theorem Stuck.emit (ht : c.trace = emit toks c'.trace)
    (hd : c.stack.length + opened toks = closed toks + c'.stack.length) (h : Stuck c' more) :
    Stuck c (toks ++ more) := by
  obtain ⟨p, f, hp, ht', hd'⟩ := h
  refine ⟨toks ++ p, f, (List.prefix_append_right_inj toks).mpr hp, by rw [ht, ht']; rfl, ?_⟩
  rw [opened_append, closed_append]
  omega

/-- The scan makes the calls `toks` from `c` to `d` if they fit, and is stuck in them
otherwise. -/
structure Scans (fits : Prop) (c : Cfg) (toks : List Token) (d : Cfg) : Prop where
  trace_eq : fits → c.trace = emit toks d.trace
  level : fits → c.stack.length + opened toks = closed toks + d.stack.length
  stuck : ¬ fits → Stuck c toks

theorem Scans.trans (h : Scans p c toks d) (h' : p → Scans q d more e) :
    Scans (p ∧ q) c (toks ++ more) e := by
  refine ⟨fun ⟨hp, hq⟩ => ?_, fun ⟨hp, hq⟩ => ?_, fun hnot => ?_⟩
  · rw [h.trace_eq hp, (h' hp).trace_eq hq, emit_emit]
  · have hl := h.level hp
    have hl' := (h' hp).level hq
    rw [opened_append, closed_append]
    omega
  · by_cases hp : p
    · exact .emit (h.trace_eq hp) (h.level hp) ((h' hp).stuck fun hq => hnot ⟨hp, hq⟩)
    · exact (h.stuck hp).append more

theorem Scans.congr (h : Scans p c toks d) (hpq : p ↔ q) : Scans q c toks d :=
  propext hpq ▸ h

/-- Calls that always fit. -/
theorem scans_of_trace (hp : p) (ht : c.trace = emit toks d.trace)
    (hl : c.stack.length + opened toks = closed toks + d.stack.length) : Scans p c toks d :=
  ⟨fun _ => ht, fun _ => hl, fun h => absurd hp h⟩

/-- No container opens inside `maxDepth` others. -/
theorem scans_open (isArray : Bool) (hv : ExpectsValue state)
    (ho : Structural (openChar isArray) o) (hstack : stack.length ≤ maxDepth) :
    Scans (stack.length < maxDepth) ⟨state, stack, o ++ s⟩ [startToken isArray]
      ⟨firstState isArray, isArray :: stack, s⟩ := by
  refine ⟨trace_open isArray hv ho, fun _ => ?_, fun hd => ?_⟩
  · cases isArray <;> simp [opened, closed, startToken]
  obtain ⟨w₁, w₂, hw₁, hw₂, rfl⟩ := ho
  have hskip := skipWs_structural (s := w₂ ++ s) hw₁ (isWs_openChar isArray)
  rw [List.append_assoc, List.cons_append]
  have hstep : step ⟨state, stack, w₁ ++ openChar isArray :: (w₂ ++ s)⟩ =
      (.failed ⟨.depthExceeded, openChar isArray :: (w₂ ++ s)⟩,
        ⟨state, stack, openChar isArray :: (w₂ ++ s)⟩) := by
    rw [step_value hv hskip (by cases isArray <;> decide)]
    cases isArray <;> simp [value, Cfg.openContainer, Nat.not_lt.mp hd, openChar]
  exact ⟨[], _, List.nil_prefix, trace_failed hstep, by simp [opened, closed]; omega⟩

theorem scans_close (hst : state = firstState isArray ∨ state = commaState isArray)
    (hc : Structural (closeChar isArray) c) (hfits : p) :
    Scans p ⟨state, isArray :: stack, c ++ s⟩ [endToken isArray] (valueEnd stack s) := by
  refine scans_of_trace hfits (trace_close isArray hst hc) ?_
  cases isArray <;> simp [opened, closed, endToken, valueEnd, Nat.add_comm]

/-- The machine runs over the text of `v`, wherever it stands, and reports its
tokens; where `v` nests too deep, it stops the scan inside it. -/
def Traced (v : Value) : Prop :=
  ∀ {state : State} {stack : List Bool} {s r : Str}, ExpectsValue state → Derives v s →
    stack.length ≤ maxDepth → Delimited r →
      Scans (stack.length + v.depth ≤ maxDepth) ⟨state, stack, s ++ r⟩ (tokensOf v)
        (valueEnd stack r)

theorem scans_itemName (hn : DerivesName isArray k n) :
    Scans True ⟨itemState isArray first, stack, n ++ s⟩ (nameTokens isArray k)
      ⟨valueState isArray first, stack, s⟩ := by
  cases isArray with
  | true =>
    cases hn
    exact scans_of_trace trivial (emit_nil _).symm (Nat.add_comm _ _)
  | false =>
    obtain ⟨n, m, hname, hm, rfl⟩ := hn
    rw [List.append_assoc]
    refine scans_of_trace trivial (trace_name ?_ hname hm) ?_
    · cases first <;> simp [itemState, firstState, nextState, ExpectsKey]
    · rw [nameTokens, keyToken]
      split <;> exact Nat.add_comm _ _

/-- An item of a container, those after it, and the end of the container. -/
theorem scans_item (first : Bool) (ht : Traced v) (hn : DerivesName isArray k n)
    (ha : Derives v a) (hb : DerivesMore isArray items b) (hc : Structural (closeChar isArray) c)
    (hstack : stack.length < maxDepth)
    (hmore : Scans (stack.length + 1 + Value.depthMembers items ≤ maxDepth)
      ⟨commaState isArray, isArray :: stack, b ++ (c ++ r)⟩
      (tokensOfItems isArray items ++ [endToken isArray]) (valueEnd stack r)) :
    Scans (stack.length + 1 + max v.depth (Value.depthMembers items) ≤ maxDepth)
      ⟨itemState isArray first, isArray :: stack, n ++ (a ++ (b ++ (c ++ r)))⟩
      (tokensOfItems isArray ((k, v) :: items) ++ [endToken isArray]) (valueEnd stack r) := by
  have hvalue : Scans (stack.length + 1 + v.depth ≤ maxDepth)
      ⟨valueState isArray first, isArray :: stack, a ++ (b ++ (c ++ r))⟩ (tokensOf v)
      ⟨commaState isArray, isArray :: stack, b ++ (c ++ r)⟩ := by
    have hv : ExpectsValue (valueState isArray first) := expectsValue_valueState
    have hscans := ht hv ha (show (isArray :: stack).length ≤ maxDepth from hstack)
      (delimited_more (r := r) hb hc)
    cases isArray <;> exact hscans
  have hall := (scans_itemName hn).trans fun _ => hvalue.trans fun _ => hmore
  rw [tokensOfItems, List.append_assoc, List.append_assoc]
  exact hall.congr (by rw [true_and]; omega)

/-- The items after a comma or none, and the end of the container. -/
theorem scans_more (ht : ∀ item ∈ items, Traced item.2) (hm : DerivesMore isArray items m)
    (hc : Structural (closeChar isArray) c) (hstack : stack.length < maxDepth) :
    Scans (stack.length + 1 + Value.depthMembers items ≤ maxDepth)
      ⟨commaState isArray, isArray :: stack, m ++ (c ++ r)⟩
      (tokensOfItems isArray items ++ [endToken isArray]) (valueEnd stack r) := by
  induction items generalizing m with
  | nil =>
    cases hm
    exact scans_close (.inr rfl) hc hstack
  | cons item items ih =>
    obtain ⟨k, v⟩ := item
    obtain ⟨l, n, a, b, hl, hn, ha, hb, rfl⟩ := hm
    have hitem := scans_item false (ht (k, v) (.head _)) hn ha hb hc hstack
      (ih (fun w hw => ht w (.tail _ hw)) hb)
    have hcomma : Scans True ⟨commaState isArray, isArray :: stack, _⟩ []
        ⟨itemState isArray false, isArray :: stack, n ++ (a ++ (b ++ (c ++ r)))⟩ :=
      scans_of_trace trivial (trace_comma isArray (isArray :: stack) hl) (Nat.add_comm _ _)
    rw [List.append_assoc, List.append_assoc, List.append_assoc]
    exact (hcomma.trans fun _ => hitem).congr (.of_eq (true_and _))

theorem scans_items (ht : ∀ item ∈ items, Traced item.2) (hm : DerivesItems isArray items m)
    (hc : Structural (closeChar isArray) c) (hstack : stack.length < maxDepth) :
    Scans (stack.length + 1 + Value.depthMembers items ≤ maxDepth)
      ⟨firstState isArray, isArray :: stack, m ++ (c ++ r)⟩
      (tokensOfItems isArray items ++ [endToken isArray]) (valueEnd stack r) := by
  cases items with
  | nil =>
    cases hm
    exact scans_close (.inl rfl) hc hstack
  | cons item items =>
    obtain ⟨k, v⟩ := item
    obtain ⟨n, a, b, hn, ha, hb, rfl⟩ := hm
    rw [List.append_assoc, List.append_assoc]
    exact scans_item true (ht (k, v) (.head _)) hn ha hb hc hstack
      (scans_more (fun w hw => ht w (.tail _ hw)) hb hc hstack)

/-- **Completeness**: the machine runs over the text of a value and reports
its tokens, or it stops where the value nests too deep. -/
theorem trace_value (v : Value) : Traced v := by
  induction v using container_induction with
  | null =>
    intro state stack s r hv hd hstack hr
    rw [hd]
    exact scans_of_trace hstack (trace_word hv (by decide) (by decide) fun _ => rfl)
      (Nat.add_comm _ _)
  | boolean value =>
    intro state stack s r hv hd hstack hr
    cases value with
    | true | false =>
      rw [hd]
      exact scans_of_trace hstack (trace_word hv (by decide) (by decide) fun _ => rfl)
        (Nat.add_comm _ _)
  | number t =>
    intro state stack s r hv hd hstack hr
    obtain ⟨ht, rfl⟩ := hd
    exact scans_of_trace hstack (trace_number hv ht hr) (Nat.add_comm _ _)
  | string b =>
    intro state stack s r hv hd hstack hr
    refine scans_of_trace hstack (trace_string hv hd r) ?_
    rw [tokensOf, stringToken]
    split <;> exact Nat.add_comm _ _
  | container isArray items ht =>
    intro state stack s r hv hd hstack hr
    obtain ⟨o, m, c, ho, hm, hc, rfl⟩ := derives_container.mp hd
    have hall := (scans_open isArray hv (s := m ++ (c ++ r)) ho hstack).trans
      fun hlt => scans_items ht hm hc hlt
    rw [List.append_assoc, List.append_assoc, tokensOf_container, depth_container]
    exact hall.congr (by omega)

/-! ## soundness -/

/-- The scan from `c` reaches the end of the document. -/
def Accepts (c : Cfg) : Prop := c.trace.2 = .ok ()

theorem accepts_silent (h : Accepts c) (hs : c.step = (.silent, c')) : Accepts c' := by
  rw [Accepts, trace_silent hs] at h
  exact h

theorem accepts_token (h : Accepts c) (hs : c.step = (.token tok, c')) : Accepts c' := by
  rw [Accepts, trace_token hs] at h
  exact h

theorem not_accepts_failed (h : Accepts c) (hs : c.step = (.failed f, c')) : False := by
  rw [Accepts, trace_failed hs] at h
  cases h

theorem Stuck.not_accepts (h : Stuck c toks) : ¬ Accepts c := by
  obtain ⟨p, f, -, ht, -⟩ := h
  rw [Accepts, ht]
  intro hok
  cases hok

/-! ### what an accepting scan has read -/

/-- An accepting scan that is not at the end reads a first character. -/
theorem Accepts.exists_first (h : Accepts c) (hne : c.state ≠ .done) :
    ∃ w first rest, Ws w ∧ c.rest = w ++ first :: rest ∧ skipWs c.rest = first :: rest ∧
      c.step = dispatch { c with rest := first :: rest } first rest := by
  obtain ⟨w, hw, heq⟩ := exists_ws_append_skipWs c.rest
  cases hskip : skipWs c.rest with
  | nil =>
    have hstep : c.step = (.failed ⟨.unexpectedEof, []⟩, { c with rest := [] }) := by
      rw [step, hskip, stepAt, if_neg hne]
    exact (not_accepts_failed h hstep).elim
  | cons first rest =>
    rw [hskip] at heq
    exact ⟨w, first, rest, hw, heq, rfl, by rw [step, hskip, stepAt]⟩

/-- An accepting scan in `c` reads a value, inside `stack`, with white space
before it. -/
def ReadsValue (stack : List Bool) (text : Str) : Prop :=
  ∃ v w s r, Ws w ∧ text = w ++ (s ++ r) ∧ Derives v s ∧ stack.length + v.depth ≤ maxDepth ∧
    Accepts (valueEnd stack r) ∧ r.length < text.length

/-- An accepting scan reads the rest of a container inside `stack`. -/
def ReadsMore (isArray : Bool) (stack : List Bool) (text : Str) : Prop :=
  ∃ items m c r, DerivesMore isArray items m ∧ Structural (closeChar isArray) c ∧
    text = m ++ (c ++ r) ∧ stack.length + 1 + Value.depthMembers items ≤ maxDepth ∧
    Accepts (valueEnd stack r) ∧ r.length < text.length

/-- Soundness for texts shorter than `n`, where a scan meets a value or the rest of a
container. -/
structure Reads (n : Nat) : Prop where
  value : ∀ {state stack text}, text.length < n → ExpectsValue state →
    (state = .arrayFirstValue → ∀ t, skipWs text ≠ ']' :: t) → stack.length ≤ maxDepth →
    Accepts ⟨state, stack, text⟩ → ReadsValue stack text
  more : ∀ isArray {stack text}, text.length < n → stack.length + 1 ≤ maxDepth →
    Accepts ⟨commaState isArray, isArray :: stack, text⟩ → ReadsMore isArray stack text

theorem structural_append (hm : Structural c m) (hw : Ws w) : Structural c (m ++ w) := by
  obtain ⟨w₁, w₂, hw₁, hw₂, rfl⟩ := hm
  exact ⟨w₁, w₂ ++ w, hw₁, hw₂.append hw, by simp⟩

theorem structural_of_ws (hw : Ws w) (c : Char) : Structural c (w ++ [c]) :=
  ⟨w, [], hw, ws_nil, rfl⟩

theorem readsName (hk : ExpectsKey state)
    (hne : state = .objectFirstKey → ∀ t, skipWs text ≠ '}' :: t)
    (h : Accepts ⟨state, stack, text⟩) :
    ∃ k w n m t, Ws w ∧ IsString k n ∧ Structural ':' m ∧ text = w ++ (n ++ (m ++ t)) ∧
      Accepts ⟨.objectValue, stack, t⟩ ∧ t.length < text.length := by
  obtain ⟨w, first, rest, hw, rfl, hskip, hstep⟩ :=
    h.exists_first (by rcases hk with rfl | rfl <;> simp)
  have hkey : step ⟨state, stack, w ++ first :: rest⟩ =
      key ⟨state, stack, first :: rest⟩ first rest := by
    rw [hstep, dispatch]
    rcases hk with rfl | rfl
    · rfl
    · have hbrace : first ≠ '}' := by
        rintro rfl
        exact hne rfl rest hskip
      exact if_neg hbrace
  simp only [Cfg.key] at hkey
  split at hkey
  · next hq =>
    subst hq
    split at hkey
    · exact (not_accepts_failed h hkey).elim
    · next name t' hbody =>
      obtain ⟨hchars, rfl⟩ := stringBody_sound hbody
      obtain ⟨w', hw', ht'⟩ := exists_ws_append_skipWs t'
      cases hcolon : skipWs t' with
      | nil =>
        rw [hcolon, colon] at hkey
        exact (not_accepts_failed h hkey).elim
      | cons e t =>
        rw [hcolon] at ht'
        rw [hcolon, colon] at hkey
        split at hkey
        · next he =>
          subst he
          refine ⟨name, w, '"' :: (name ++ ['"']), w' ++ [':'], t, hw, ⟨hchars, rfl⟩,
            structural_of_ws hw' ':', by simp [ht'], accepts_token h hkey, ?_⟩
          simp only [ht', List.length_append, List.length_cons]
          omega
        · exact (not_accepts_failed h hkey).elim
  · exact (not_accepts_failed h hkey).elim

theorem Accepts.comma (h : Accepts ⟨commaState isArray, isArray :: stack, text⟩) : ∃ w rest, Ws w ∧
      (text = w ++ ',' :: rest ∧ Accepts ⟨nextState isArray, isArray :: stack, rest⟩ ∨
        text = w ++ closeChar isArray :: rest ∧ Accepts (valueEnd stack rest)) := by
  obtain ⟨w, c, rest, hw, rfl, -, hstep⟩ := h.exists_first (by cases isArray <;> simp [commaState])
  have hdispatch : dispatch ⟨commaState isArray, isArray :: stack, c :: rest⟩ c rest =
      if c = ',' then (.silent, ⟨nextState isArray, isArray :: stack, rest⟩)
      else if c = closeChar isArray then (.token (endToken isArray), valueEnd stack rest)
      else (.failed ⟨.unexpectedByte, c :: rest⟩,
        ⟨commaState isArray, isArray :: stack, c :: rest⟩) := by
    cases isArray <;> rfl
  refine ⟨w, rest, hw, ?_⟩
  rw [hdispatch] at hstep
  split at hstep
  · next hc => exact .inl ⟨by rw [hc], accepts_silent h hstep⟩
  split at hstep
  · next hc => exact .inr ⟨by rw [hc], accepts_token h hstep⟩
  · exact (not_accepts_failed h hstep).elim

theorem Accepts.close (h : Accepts ⟨firstState isArray, isArray :: stack, text⟩)
    (ht : skipWs text = closeChar isArray :: t) :
    ∃ w, Ws w ∧ text = w ++ closeChar isArray :: t ∧ Accepts (valueEnd stack t) := by
  obtain ⟨w, c, rest, hw, rfl, hskip, hstep⟩ :=
    h.exists_first (by cases isArray <;> simp [firstState])
  obtain ⟨rfl, rfl⟩ : c = closeChar isArray ∧ rest = t := by simpa [hskip] using ht
  have hend : step ⟨firstState isArray, isArray :: stack, w ++ closeChar isArray :: rest⟩ =
      (.token (endToken isArray), valueEnd stack rest) := by
    rw [hstep]
    cases isArray <;> rfl
  exact ⟨w, hw, rfl, accepts_token h hend⟩

namespace Reads

/-- An item and the rest of the container, from a state in which the item starts. -/
theorem item (first : Bool) (hl : Reads l) (hlen : text.length < l)
    (hne : first = true → ∀ t, skipWs text ≠ closeChar isArray :: t)
    (hd : stack.length + 1 ≤ maxDepth)
    (h : Accepts ⟨itemState isArray first, isArray :: stack, text⟩) :
    ∃ k v items w n a b c r, Ws w ∧ text = w ++ (n ++ (a ++ (b ++ (c ++ r)))) ∧
      DerivesName isArray k n ∧ Derives v a ∧ DerivesMore isArray items b ∧
      Structural (closeChar isArray) c ∧
      stack.length + 1 + max v.depth (Value.depthMembers items) ≤ maxDepth ∧
      Accepts (valueEnd stack r) ∧ r.length < text.length := by
  cases isArray with
  | true =>
    have hd' : (true :: stack).length ≤ maxDepth := hd
    have hv : ExpectsValue (valueState true first) := expectsValue_valueState
    have hne' : itemState true first = .arrayFirstValue → ∀ t, skipWs text ≠ ']' :: t := by
      cases first
      · simp [itemState, nextState]
      · exact fun _ => hne rfl
    obtain ⟨v, w, a, r₁, hw, rfl, ha, hdv, hacc, hlt⟩ := hl.value hlen hv hne' hd' h
    obtain ⟨items, b, c, r, hb, hc, rfl, hdvs, hacc', hlt'⟩ :=
      hl.more true (by omega) hd hacc
    simp only [List.length_cons] at hdv
    exact ⟨[], v, items, w, [], a, b, c, r, hw, rfl, rfl, ha, hb, hc, by omega, hacc', by omega⟩
  | false =>
    have hd' : (false :: stack).length ≤ maxDepth := hd
    have hk : ExpectsKey (itemState false first) := by
      cases first <;> simp [itemState, firstState, nextState, ExpectsKey]
    have hne' : itemState false first = .objectFirstKey → ∀ t, skipWs text ≠ '}' :: t := by
      cases first
      · simp [itemState, nextState]
      · exact fun _ => hne rfl
    obtain ⟨k, w, name, m, t, hw, hname, hm, rfl, hacc, hlt⟩ := readsName hk hne' h
    obtain ⟨v, w', a, r₁, hw', rfl, ha, hdv, hacc', hlt'⟩ :=
      hl.value (by omega) (.inr (.inl rfl)) (by simp) hd' hacc
    obtain ⟨items, b, c, r, hb, hc, rfl, hdms, hend, hlt''⟩ :=
      hl.more false (by omega) hd hacc'
    simp only [List.length_cons] at hdv
    exact ⟨k, v, items, w, name ++ (m ++ w'), a, b, c, r, hw, by simp,
      ⟨name, m ++ w', hname, structural_append hm hw', rfl⟩, ha, hb, hc, by omega, hend, by omega⟩

theorem more_succ (hl : Reads l) (isArray : Bool) (hlen : text.length < l + 1)
    (hd : stack.length + 1 ≤ maxDepth) (h : Accepts ⟨commaState isArray, isArray :: stack, text⟩) :
    ReadsMore isArray stack text := by
  obtain ⟨w, rest, hw, ⟨rfl, hacc⟩ | ⟨rfl, hacc⟩⟩ := h.comma
  · have hshort : rest.length < l := by
      simp only [List.length_append, List.length_cons] at hlen
      omega
    obtain ⟨k, v, items, w', n, a, b, c, r, hw', rfl, hn, ha, hb, hc, hdepth, hend, hlt⟩ :=
      item false hl hshort (by simp) hd hacc
    refine ⟨(k, v) :: items, (w ++ ',' :: w') ++ (n ++ (a ++ b)), c, r, ?_, hc, by simp, ?_, hend,
      ?_⟩
    · exact ⟨w ++ ',' :: w', n, a, b, ⟨w, w', hw, hw', rfl⟩, hn, ha, hb, rfl⟩
    · rw [Value.depthMembers]
      exact hdepth
    · simp only [List.length_append, List.length_cons] at hlt ⊢
      omega
  · refine ⟨[], [], w ++ [closeChar isArray], rest, rfl, structural_of_ws hw _, by simp, ?_, hacc,
      ?_⟩
    · rw [Value.depthMembers]
      omega
    · simp only [List.length_append, List.length_cons]
      omega

/-- The items of a container, after its opening bracket. -/
theorem all (hl : Reads l) (hlen : text.length < l) (hd : stack.length + 1 ≤ maxDepth)
    (h : Accepts ⟨firstState isArray, isArray :: stack, text⟩) :
    ∃ items w m c r, Ws w ∧ text = w ++ (m ++ (c ++ r)) ∧ DerivesItems isArray items m ∧
      Structural (closeChar isArray) c ∧ stack.length + 1 + Value.depthMembers items ≤ maxDepth ∧
      Accepts (valueEnd stack r) ∧ r.length < text.length := by
  by_cases hempty : ∃ t, skipWs text = closeChar isArray :: t
  · obtain ⟨t, ht⟩ := hempty
    obtain ⟨w, hw, rfl, hacc⟩ := h.close ht
    refine ⟨[], [], [], w ++ [closeChar isArray], t, ws_nil, by simp, rfl, structural_of_ws hw _,
      ?_, hacc, ?_⟩
    · rw [Value.depthMembers]
      omega
    · simp only [List.length_append, List.length_cons]
      omega
  · obtain ⟨k, v, items, w, n, a, b, c, r, hw, rfl, hn, ha, hb, hc, hdepth, hend, hlt⟩ :=
      item true hl hlen (fun _ t ht => hempty ⟨t, ht⟩) hd h
    refine ⟨(k, v) :: items, w, n ++ (a ++ b), c, r, hw, by simp, ⟨n, a, b, hn, ha, hb, rfl⟩, hc,
      ?_, hend, hlt⟩
    exact hdepth

/-- A scalar that the machine reads at the start of `s ++ r`. -/
theorem scalar_value (hw : Ws w) (hd : stack.length ≤ maxDepth) (hne : s ≠ [])
    (hdepth : v.depth = 0) (hs : Derives v s) (h : Accepts ⟨state, stack, w ++ (s ++ r)⟩)
    (hstep : step ⟨state, stack, w ++ (s ++ r)⟩ = (.token tok, valueEnd stack r)) :
    ReadsValue stack (w ++ (s ++ r)) := by
  refine ⟨v, w, s, r, hw, rfl, hs, by omega, accepts_token h hstep, ?_⟩
  have := List.length_pos_iff.mpr hne
  simp only [List.length_append]
  omega

theorem word_value (hw : Ws w) (hd : stack.length ≤ maxDepth) (hne : word ≠ [])
    (hdepth : v.depth = 0) (hs : Derives v word) (h : Accepts ⟨state, stack, w ++ t⟩)
    (hstep : step ⟨state, stack, w ++ t⟩ = scalar ⟨state, stack, t⟩ (fun _ => tok)
      (literal word t)) :
    ReadsValue stack (w ++ t) := by
  cases hl : literal word t with
  | error f =>
    rw [hl] at hstep
    exact (not_accepts_failed h hstep).elim
  | ok p =>
    obtain ⟨text, r⟩ := p
    obtain ⟨rfl, rfl⟩ := literal_sound hl
    rw [hl] at hstep
    exact scalar_value hw hd hne hdepth hs h hstep

theorem string_value {w rest : Str} (hw : Ws w) (hd : stack.length ≤ maxDepth)
    (h : Accepts ⟨state, stack, w ++ '"' :: rest⟩)
    (hstep : step ⟨state, stack, w ++ '"' :: rest⟩ =
      scalar ⟨state, stack, '"' :: rest⟩ stringToken (stringBody rest)) :
    ReadsValue stack (w ++ '"' :: rest) := by
  cases hb : stringBody rest with
  | error f =>
    rw [hb] at hstep
    exact (not_accepts_failed h hstep).elim
  | ok p =>
    obtain ⟨body, r⟩ := p
    obtain ⟨hchars, rfl⟩ := stringBody_sound hb
    rw [hb] at hstep
    have hcut : w ++ '"' :: (body ++ '"' :: r) = w ++ ('"' :: (body ++ ['"']) ++ r) := by simp
    rw [hcut] at h hstep ⊢
    exact scalar_value hw hd (by simp) rfl (v := .string body)
      (by rw [Derives]; exact ⟨hchars, rfl⟩) h hstep

theorem number_value (hw : Ws w) (hd : stack.length ≤ maxDepth) (h : Accepts ⟨state, stack, w ++ s⟩)
    (hstep : step ⟨state, stack, w ++ s⟩ = scalar ⟨state, stack, s⟩ .number (number s)) :
    ReadsValue stack (w ++ s) := by
  cases hnum : number s with
  | error f =>
    rw [hnum] at hstep
    exact (not_accepts_failed h hstep).elim
  | ok p =>
    obtain ⟨t, r⟩ := p
    have ht := number_sound hnum
    rw [hnum] at hstep
    rw [computes_number.splits hnum] at h hstep ⊢
    exact scalar_value hw hd (number_ne_nil hnum) rfl (v := .number t)
      (by rw [Derives]; exact ⟨ht, rfl⟩) h hstep

theorem container_value (isArray : Bool) (hl : Reads l) {w rest : Str} (hw : Ws w)
    (hshort : rest.length < l) (h : Accepts ⟨state, stack, w ++ openChar isArray :: rest⟩)
    (hstep : step ⟨state, stack, w ++ openChar isArray :: rest⟩ =
      openContainer ⟨state, stack, openChar isArray :: rest⟩ isArray (firstState isArray)
        (startToken isArray) rest) : ReadsValue stack (w ++ openChar isArray :: rest) := by
  simp only [Cfg.openContainer] at hstep
  split at hstep
  · exact (not_accepts_failed h hstep).elim
  · next hdepth =>
    obtain ⟨items, w', m, c, r, hw', rfl, hm, hc, hditems, hend, hlt⟩ :=
      hl.all hshort (by omega) (accepts_token h hstep)
    refine ⟨container isArray items, w, (openChar isArray :: w') ++ (m ++ c), r, hw, by simp, ?_,
      ?_, hend, ?_⟩
    · exact derives_container.mpr
        ⟨openChar isArray :: w', m, c, ⟨[], w', ws_nil, hw', rfl⟩, hm, hc, rfl⟩
    · rw [depth_container]
      omega
    · simp only [List.length_append, List.length_cons] at hlt ⊢
      omega

theorem value_succ (hn : Reads n) (hlen : text.length < n + 1) (hv : ExpectsValue state)
    (hne : state = .arrayFirstValue → ∀ t, skipWs text ≠ ']' :: t) (hd : stack.length ≤ maxDepth)
    (h : Accepts ⟨state, stack, text⟩) : ReadsValue stack text := by
  obtain ⟨w, first, rest, hw, rfl, hskip, hstep⟩ :=
    h.exists_first (by rcases hv with rfl | rfl | rfl | rfl <;> simp)
  have hshort : rest.length < n := by
    simp only [List.length_append, List.length_cons] at hlen
    omega
  have hvalue : step ⟨state, stack, w ++ first :: rest⟩ =
      Cfg.value ⟨state, stack, first :: rest⟩ first rest := by
    rw [hstep, dispatch]
    rcases hv with rfl | rfl | rfl | rfl
    · rfl
    · rfl
    · rfl
    · have hbracket : first ≠ ']' := by
        rintro rfl
        exact hne rfl rest hskip
      exact if_neg hbracket
  revert hvalue
  refine value_rule (P := fun p => step ⟨state, stack, w ++ first :: rest⟩ = p → ReadsValue stack _)
    ⟨state, stack, first :: rest⟩ first rest ?object ?array ?string ?true ?false ?null ?num ?failed
  case object =>
    intro hf hvalue
    subst hf
    exact container_value false hn hw hshort h hvalue
  case array =>
    intro hf hvalue
    subst hf
    exact container_value true hn hw hshort h hvalue
  case string =>
    intro hf hvalue
    subst hf
    exact string_value hw hd h hvalue
  case true =>
    exact fun _ => word_value (v := .boolean true) hw hd (by simp) rfl (by rw [Derives]) h
  case false =>
    exact fun _ => word_value (v := .boolean false) hw hd (by simp) rfl (by rw [Derives]) h
  case null => exact fun _ => word_value (v := .null) hw hd (by simp) rfl (by rw [Derives]) h
  case num => exact number_value hw hd h
  case failed => exact fun hvalue => (not_accepts_failed h hvalue).elim

end Reads

/-- **Soundness**: an accepting scan has read a value, or the rest of a container. -/
theorem reads (n : Nat) : Reads n := by
  induction n with
  | zero => exact ⟨fun h => absurd h (Nat.not_lt_zero _), fun _ _ _ h =>
      absurd h (Nat.not_lt_zero _)⟩
  | succ n ih => exact ⟨ih.value_succ, fun isArray => ih.more_succ isArray⟩

/-! ## whole documents -/

/-- After the outermost value only white space is left. -/
theorem trace_done (hw : Ws w) : trace ⟨.done, [], w⟩ = ([], .ok ()) := by
  have hskip := skipWs_append hw []
  rw [List.append_nil] at hskip
  have hstep : step ⟨.done, [], w⟩ = (.finished, ⟨.done, [], []⟩) := by rw [step, hskip]; rfl
  exact trace_finished hstep

theorem ws_of_accepts_done (h : Accepts ⟨.done, [], r⟩) : Ws r := by
  obtain ⟨w, hw, hr⟩ := exists_ws_append_skipWs r
  cases hskip : skipWs r with
  | nil => rw [hskip, List.append_nil] at hr; rw [hr]; exact hw
  | cons first rest =>
    have hstep : step ⟨.done, [], r⟩ =
        (.failed ⟨.trailingData, first :: rest⟩, ⟨.done, [], first :: rest⟩) := by
      rw [step, hskip]
      rfl
    exact (not_accepts_failed h hstep).elim

theorem trace_jsonText (h : JsonText v s) (hd : v.depth ≤ maxDepth) :
    trace ⟨.start, [], s⟩ = (tokensOf v, .ok ()) := by
  obtain ⟨w₁, t, w₂, hw₁, ht, hw₂, rfl⟩ := h
  have hr : Delimited w₂ := by simpa using delimited_ws hw₂ delimited_nil
  rw [trace_ws hw₁, (trace_value v (.inl rfl) ht (Nat.zero_le _) hr).trace_eq (by simpa using hd),
    valueEnd, after, trace_done hw₂]
  simp [emit]

/-- The machine accepts exactly the documents of the grammar that nest at
most `maxDepth` containers. -/
theorem accepts_start_iff (s : Str) :
    Accepts ⟨.start, [], s⟩ ↔ ∃ v, JsonText v s ∧ v.depth ≤ maxDepth := by
  constructor
  · intro h
    obtain ⟨v, w, t, r, hw, rfl, ht, hd, hacc, -⟩ :=
      (reads _).value (Nat.lt_succ_self _) (.inl rfl) (by simp) (Nat.zero_le _) h
    exact ⟨v, ⟨w, t, r, hw, ht, ws_of_accepts_done hacc, rfl⟩, by simpa using hd⟩
  · rintro ⟨v, h, hd⟩
    rw [Accepts, trace_jsonText h hd]

/-- The machine on the text of a document that nests too deep. -/
theorem stuck_jsonText (h : JsonText v s) (hd : maxDepth < v.depth) :
    Stuck ⟨.start, [], s⟩ (tokensOf v) := by
  obtain ⟨w₁, t, w₂, hw₁, ht, hw₂, rfl⟩ := h
  have hr : Delimited w₂ := by simpa using delimited_ws hw₂ delimited_nil
  have hstuck : Stuck ⟨.start, [], t ++ w₂⟩ (tokensOf v) :=
    (trace_value v (.inl rfl) ht (Nat.zero_le _) hr).stuck (by simpa using hd)
  have htrace : trace ⟨.start, [], _⟩ = emit [] _ := trace_ws hw₁ .start [] (t ++ w₂)
  exact .emit htrace rfl hstuck

/-- Every parse tree of an accepted document nests at most `maxDepth`
containers. -/
theorem depth_le_of_accepts (h : JsonText v s) (ha : Accepts ⟨.start, [], s⟩) :
    v.depth ≤ maxDepth :=
  Nat.not_lt.mp fun hdeep => (stuck_jsonText h hdeep).not_accepts ha

namespace Tokenizer

theorem trace_new_ok_iff (input : Str) :
    (new input).trace.2 = .ok () ↔ ∃ v, JsonText v input ∧ v.depth ≤ maxDepth := by
  rw [(Refines.new input).trace_eq, ← accepts_start_iff, Accepts]
  generalize (Cfg.trace ⟨.start, [], input⟩).2 = r
  cases r with
  | ok => exact ⟨fun _ => rfl, fun _ => rfl⟩
  | error f =>
    constructor
    · intro h
      cases h
    · intro h
      cases h

theorem trace_new {input : Str} (h : JsonText v input) (hd : v.depth ≤ maxDepth) :
    (new input).trace = (tokensOf v, .ok ()) := by
  rw [(Refines.new input).trace_eq, trace_jsonText h hd]
  rfl

/-- The trace of an accepted document is that of every parse tree it has. -/
theorem trace_new_of_ok {input : Str} (h : JsonText v input) (hok : (new input).trace.2 = .ok ()) :
    (new input).trace = (tokensOf v, .ok ()) := by
  have hacc := (accepts_start_iff input).mpr ((trace_new_ok_iff input).mp hok)
  exact trace_new h (depth_le_of_accepts h hacc)

/-- **The tokenizer decides the grammar.** With a visitor that never
suspends, a scan returns `Ok(None)` exactly on the RFC 8259 texts that nest
at most `maxDepth` containers, and then the visitor has received exactly the
calls for the parse tree, in order. -/
theorem drive_new_iff (v : Visitor σ Out) (hv : v.NeverSuspends) (input : Str) (s : σ) :
    ((drive v (new input) s).1 = .ok none ↔ ∃ tree, JsonText tree input ∧ tree.depth ≤ maxDepth) ∧
      ((drive v (new input) s).1 = .ok none → ∀ tree, JsonText tree input →
        (drive v (new input) s).2.2 = v.visit (tokensOf tree) s) := by
  obtain ⟨hres, hvis⟩ := drive_of_neverSuspends hv (show (new input).failure = none from rfl) s
  have hiff : (drive v (new input) s).1 = .ok none ↔ (new input).trace.2 = .ok () := by
    rw [hres]
    cases (new input).trace.2 <;> simp [Except.map]
  refine ⟨hiff.trans (trace_new_ok_iff input), fun hok tree htree => ?_⟩
  rw [hvis, trace_new_of_ok htree (hiff.mp hok)]

/-- A visitor that records its calls. -/
def recorder : Visitor (List Token) Unit := Visitor.ofCall fun tok log => (none, log ++ [tok])

theorem neverSuspends_recorder : recorder.NeverSuspends := by
  intro tok s
  simp [recorder]

/-- The document `[1]`, scanned with a recorder. -/
theorem drive_new_array_one : (drive recorder (new ['[', '1', ']']) []).1 = .ok none ∧
      (drive recorder (new ['[', '1', ']']) []).2.2 = [.arrayStart, .number ['1'], .arrayEnd] := by
  have htree : JsonText (.array [.number ['1']]) ['[', '1', ']'] := by
    have hone : Number ['1'] :=
      ⟨[], ['1'], [], [], .inl rfl, .inr ⟨'1', [], by decide, by simp, rfl⟩, .inl rfl, .inl rfl,
        rfl⟩
    refine ⟨[], ['[', '1', ']'], [], ws_nil, ?_, ws_nil, rfl⟩
    refine ⟨['['], ['1'], [']'], structural_of_ws ws_nil '[', ?_, structural_of_ws ws_nil ']', rfl⟩
    exact ⟨['1'], [], by rw [Derives]; exact ⟨hone, rfl⟩, by rw [DerivesMoreElements], rfl⟩
  obtain ⟨hiff, hcalls⟩ := drive_new_iff recorder neverSuspends_recorder ['[', '1', ']'] []
  have hok := hiff.mpr ⟨_, htree, by decide⟩
  exact ⟨hok, hcalls hok _ htree⟩

end Tokenizer

end Kimojio.Json
