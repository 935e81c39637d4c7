import Kimojio.Json.Resume

/-!
# Kimojio.Json.Viable

Every scan reads the beginning of a tree: the calls a scan makes, whether it
finishes or fails, are a first part of the calls for some value, and on the
text of a value they are a first part of the calls for that value.

A configuration in the middle of a document stands inside a list of open
containers. `Frame` records what each of them has read, innermost first, so
that the calls made so far are `tokensBefore` and closing the containers is
`plug`.
-/

namespace Kimojio.Json

open Rfc8259
open Str
open Cfg (ExpectsValue valueEnd)

/-! ## the containers a scan stands in -/

/-- An open container, with what it has read. -/
inductive Frame where
  | array (done : List Value)
  /-- An object between its members. -/
  | object (done : List (List Char × Value))
  /-- An object after a name, whose value is still missing. -/
  | member (done : List (List Char × Value)) (name : List Char)

namespace Frame

def isArray : Frame → Bool
  | .array _ => true
  | .object _ | .member _ _ => false

/-- A value may follow. -/
def HasHole : Frame → Prop
  | .array _ | .member _ _ => True
  | .object _ => False

/-- The calls for a container that is still open. -/
def tokens : Frame → List Token
  | .array done => .arrayStart :: tokensOfElements done
  | .object done => .objectStart :: tokensOfMembers done
  | .member done name => .objectStart :: (tokensOfMembers done ++ [keyToken name])

/-- The container after its next value. -/
def push : Frame → Value → Frame
  | .array done, v => .array (done ++ [v])
  | .object done, _ => .object done
  | .member done name, v => .object (done ++ [(name, v)])

/-- The container, closed. -/
def close : Frame → Value
  | .array done => .array done
  | .object done | .member done _ => .object done

end Frame

/-- The calls made inside open containers, the innermost first in the list. -/
def tokensBefore : List Frame → List Token
  | [] => []
  | f :: frames => tokensBefore frames ++ f.tokens

/-- The tree that puts `v` in the innermost container and closes them all. -/
def plug : List Frame → Value → Value
  | [], v => v
  | f :: frames, v => plug frames (f.push v).close

namespace Frame

theorem tokens_push {f : Frame} (h : f.HasHole) (v : Value) :
    (f.push v).tokens = f.tokens ++ tokensOf v := by
  cases f with
  | array done => simp [push, tokens, tokensOfElements_eq]
  | object done => exact h.elim
  | member done name => simp [push, tokens, tokensOfMembers_eq]

/-- The calls for a container that closes after its last element or member. -/
theorem tokens_close (f : Frame) (v : Value) :
    tokensOf (f.push v).close = (f.push v).tokens ++ [endToken f.isArray] := by
  cases f <;> simp [push, close, tokens, tokensOf, isArray, endToken]

theorem isArray_push (f : Frame) (v : Value) : (f.push v).isArray = f.isArray := by
  cases f <;> rfl

end Frame

/-- The calls so far, with those for one more value, begin the calls for the
tree that is closed after it. -/
theorem prefix_plug (h : ∀ f ∈ frames, f.HasHole) (v : Value) :
    tokensBefore frames ++ tokensOf v <+: tokensOf (plug frames v) := by
  induction frames generalizing v with
  | nil => exact List.prefix_rfl
  | cons f frames ih =>
    have hf : f.HasHole := h f (by simp)
    have hnext := ih (fun g hg => h g (by simp [hg])) (f.push v).close
    refine List.IsPrefix.trans ?_ hnext
    rw [tokensBefore, List.append_assoc, ← Frame.tokens_push hf, Frame.tokens_close,
      ← List.append_assoc]
    exact List.prefix_append _ _

/-! ## configurations inside a document -/

/-- The states of an array between brackets. -/
def InArray (state : State) : Prop :=
  state = .arrayFirstValue ∨ state = .arrayNextValue ∨ state = .arrayComma

/-- The states of an object between braces, a member's value apart. -/
def InObject (state : State) : Prop :=
  state = .objectFirstKey ∨ state = .objectNextKey ∨ state = .objectComma

/-- The innermost container that goes with a state. -/
inductive Place : State → List Frame → Prop where
  | start : Place .start []
  | array : InArray state → Place state (.array done :: outer)
  | object : InObject state → Place state (.object done :: outer)
  | value : Place .objectValue (.member done name :: outer)

theorem Place.exists_array (h : Place state frames) (hs : InArray state) :
    ∃ done outer, frames = .array done :: outer := by
  cases h with
  | array => exact ⟨_, _, rfl⟩
  | start | value => simp [InArray] at hs
  | object ho => rcases hs with rfl | rfl | rfl <;> simp [InObject] at ho

theorem Place.exists_object (h : Place state frames) (hs : InObject state) :
    ∃ done outer, frames = .object done :: outer := by
  cases h with
  | object => exact ⟨_, _, rfl⟩
  | start | value => simp [InObject] at hs
  | array ha => rcases hs with rfl | rfl | rfl <;> simp [InArray] at ha

/-- The scan stands in `frames`. -/
structure Inside (c : Cfg) (frames : List Frame) : Prop where
  place : Place c.state frames
  stack_eq : frames.map Frame.isArray = c.stack
  holes : ∀ f ∈ frames.tail, f.HasHole

/-- The calls `toks` lead to `c` in some document. -/
def Viable (c : Cfg) (toks : List Token) : Prop :=
  (c.state = .done ∧ ∃ v, toks = tokensOf v) ∨
    ∃ frames, Inside c frames ∧ toks = tokensBefore frames

/-- Where a value may start, every open container takes one. -/
theorem Inside.hasHole (h : Inside c frames) (hv : ExpectsValue c.state) :
    ∀ f ∈ frames, f.HasHole := by
  intro f hf
  cases frames with
  | nil => cases hf
  | cons g frames =>
    rcases List.mem_cons.mp hf with rfl | hf
    · cases f with
      | array | member => trivial
      | object done =>
        have hplace := h.place
        generalize c.state = state at hplace hv
        cases hplace with
        | object ho => rcases hv with rfl | rfl | rfl | rfl <;> simp [InObject] at ho
    · exact h.holes f hf

/-- After a value, in containers that take one. -/
theorem viable_valueEnd (h : ∀ f ∈ frames, f.HasHole) (v : Value) (r : Str) :
    Viable (valueEnd (frames.map Frame.isArray) r) (tokensBefore frames ++ tokensOf v) := by
  cases frames with
  | nil => exact .inl ⟨rfl, v, rfl⟩
  | cons f frames =>
    have hf : f.HasHole := h f (by simp)
    refine .inr ⟨f.push v :: frames, ⟨?_, ?_, fun g hg => h g (.tail _ hg)⟩, ?_⟩
    · cases f with
      | array => exact .array (.inr (.inr rfl))
      | object => exact hf.elim
      | member => exact .object (.inr (.inr rfl))
    · simp [valueEnd, Frame.isArray_push]
    · rw [tokensBefore, tokensBefore, Frame.tokens_push hf, List.append_assoc]

theorem Inside.openContainer (h : Inside c frames) (hv : ExpectsValue c.state) (f : Frame)
    (hp : Place state (f :: frames)) (r : Str) :
    Inside ⟨state, f.isArray :: c.stack, r⟩ (f :: frames) where
  place := hp
  stack_eq := by rw [List.map_cons, h.stack_eq]
  holes := h.hasHole hv

theorem viable_close (h : Inside c (f :: frames)) (hf : tokensOf f.close = f.tokens ++ [tok])
    (r : Str) : Viable (valueEnd c.stack.tail r) (tokensBefore (f :: frames) ++ [tok]) := by
  have hstack : c.stack.tail = frames.map Frame.isArray := by rw [← h.stack_eq]; rfl
  rw [hstack, tokensBefore, List.append_assoc, ← hf]
  exact viable_valueEnd h.holes f.close r

/-- The call for a scalar is that of a value. -/
theorem Token.IsScalar.exists_value (h : tok.IsScalar) (hv : tok.Valid) :
    ∃ v, tokensOf v = [tok] := by
  cases tok with
  | escapeString body => exact ⟨.string body.raw, by simp [tokensOf, stringToken, hv.2]⟩
  | string body => exact ⟨.string body, by simp [tokensOf, stringToken, hv.2]⟩
  | number text => exact ⟨.number text, by rw [tokensOf]⟩
  | boolean value => exact ⟨.boolean value, by rw [tokensOf]⟩
  | null => exact ⟨.null, by rw [tokensOf]⟩
  | _ => exact h.elim

theorem Token.IsKey.exists_name (h : tok.IsKey) (hv : tok.Valid) : ∃ name, keyToken name = tok := by
  cases tok with
  | escapeKey body => exact ⟨body.raw, by simp [keyToken, hv.2]⟩
  | key body => exact ⟨body, by simp [keyToken, hv.2]⟩
  | _ => exact h.elim

/-- Before the end of the document the scan stands in its containers. -/
theorem Viable.inside (h : Viable c toks) (hs : c.state ≠ .done) :
    ∃ frames, Inside c frames ∧ toks = tokensBefore frames := by
  obtain ⟨hd, -⟩ | h := h
  · exact absurd hd hs
  · exact h

theorem ne_done_of_expectsValue (h : ExpectsValue state) : state ≠ .done := by
  rcases h with rfl | rfl | rfl | rfl <;> simp

section
variable (h : Viable c toks)
include h

theorem Viable.insideArray (hs : InArray c.state) :
    ∃ done outer, Inside c (.array done :: outer) ∧ toks = tokensBefore (.array done :: outer) := by
  obtain ⟨frames, hin, rfl⟩ := h.inside (by rcases hs with h | h | h <;> simp [h])
  obtain ⟨done, outer, rfl⟩ := hin.place.exists_array hs
  exact ⟨done, outer, hin, rfl⟩

theorem Viable.insideObject (hs : InObject c.state) :
    ∃ done outer, Inside c (.object done :: outer) ∧
      toks = tokensBefore (.object done :: outer) := by
  obtain ⟨frames, hin, rfl⟩ := h.inside (by rcases hs with h | h | h <;> simp [h])
  obtain ⟨done, outer, rfl⟩ := hin.place.exists_object hs
  exact ⟨done, outer, hin, rfl⟩

theorem Viable.moves (hm : Cfg.Moves c m c') (hc : m.Continues) :
    Viable c' (toks ++ m.calls) := by
  cases hm with
  | finished | failed => exact hc.elim
  | scalar hv htok =>
    obtain ⟨frames, hin, rfl⟩ := h.inside (ne_done_of_expectsValue hv)
    obtain ⟨v, hval⟩ := htok.1.exists_value htok.2
    rw [Move.calls, ← hval, ← hin.stack_eq]
    exact viable_valueEnd (hin.hasHole hv) v _
  | arrayStart hv =>
    obtain ⟨frames, hin, rfl⟩ := h.inside (ne_done_of_expectsValue hv)
    exact .inr ⟨.array [] :: frames, hin.openContainer hv (.array []) (.array (.inl rfl)) _, rfl⟩
  | objectStart hv =>
    obtain ⟨frames, hin, rfl⟩ := h.inside (ne_done_of_expectsValue hv)
    exact .inr ⟨.object [] :: frames, hin.openContainer hv (.object []) (.object (.inl rfl)) _, rfl⟩
  | key hk htok =>
    obtain ⟨done, outer, hin, rfl⟩ := h.insideObject (hk.elim (.inr ∘ .inl) .inl)
    obtain ⟨name, hname⟩ := htok.1.exists_name htok.2
    refine .inr ⟨.member done name :: outer, ⟨.value, hin.stack_eq, hin.holes⟩, ?_⟩
    simp [tokensBefore, Frame.tokens, Move.calls, hname]
  | arrayEnd hs =>
    obtain ⟨done, outer, hin, rfl⟩ := h.insideArray (hs.elim .inl (.inr ∘ .inr))
    exact viable_close hin (by rw [Frame.close, tokensOf, Frame.tokens, List.cons_append]) _
  | objectEnd hs =>
    obtain ⟨done, outer, hin, rfl⟩ := h.insideObject (hs.elim .inl (.inr ∘ .inr))
    exact viable_close hin (by rw [Frame.close, tokensOf, Frame.tokens, List.cons_append]) _
  | arrayComma hs =>
    obtain ⟨done, outer, hin, rfl⟩ := h.insideArray (.inr (.inr hs))
    exact .inr ⟨_, ⟨.array (.inr (.inl rfl)), hin.stack_eq, hin.holes⟩, List.append_nil _⟩
  | objectComma hs =>
    obtain ⟨done, outer, hin, rfl⟩ := h.insideObject (.inr (.inr hs))
    exact .inr ⟨_, ⟨.object (.inr (.inl rfl)), hin.stack_eq, hin.holes⟩, List.append_nil _⟩

/-- What has been called begins the calls for a tree. -/
theorem Viable.exists_tree : ∃ v, toks <+: tokensOf v := by
  obtain ⟨-, v, rfl⟩ | ⟨frames, hin, rfl⟩ := h
  · exact ⟨v, List.prefix_rfl⟩
  · cases frames with
    | nil => exact ⟨.null, List.nil_prefix⟩
    | cons f frames =>
      -- The innermost container closes as it is; a name without a value is given one.
      refine ⟨plug frames (f.push .null).close, ?_⟩
      refine List.IsPrefix.trans ?_ (prefix_plug hin.holes _)
      rw [List.tail_cons, tokensBefore, List.prefix_append_right_inj, Frame.tokens_close]
      cases f with
      | object => exact List.prefix_append _ _
      | array done =>
        rw [Frame.tokens_push (show (Frame.array done).HasHole from trivial), List.append_assoc]
        exact List.prefix_append _ _
      | member done name =>
        rw [Frame.tokens_push (show (Frame.member done name).HasHole from trivial),
          List.append_assoc]
        exact List.prefix_append _ _

/-- Every scan reads the beginning of a tree. -/
theorem Viable.exists_tree_trace : ∃ v, toks ++ c.trace.1 <+: tokensOf v := by
  fun_induction Cfg.trace c generalizing toks with
  | case1 | case2 =>
    rw [List.append_nil]
    exact h.exists_tree
  | case3 c c' hs ih =>
    have hmoves := c.step_moves
    rw [hs] at hmoves
    have hnext : Viable c' (toks ++ []) := h.moves hmoves trivial
    rw [List.append_nil] at hnext
    exact ih hnext
  | case4 c tok c' hs ih =>
    have hmoves := c.step_moves
    rw [hs] at hmoves
    obtain ⟨v, hv⟩ := ih (h.moves hmoves trivial)
    exact ⟨v, by rw [emit_fst, ← List.append_assoc]; exact hv⟩

end

namespace Tokenizer

/-- The calls on any text begin the calls for some tree. -/
theorem exists_tree (input : Str) : ∃ v, (new input).trace.1 <+: tokensOf v := by
  have hstart : Viable ⟨.start, [], input⟩ [] :=
    .inr ⟨[], ⟨.start, rfl, by simp⟩, rfl⟩
  rw [(Refines.new input).trace_eq]
  exact hstart.exists_tree_trace

/-- The calls on the text of a tree begin the calls for that tree, however
deep it nests. -/
theorem prefix_of_jsonText {input : Str} (h : JsonText v input) :
    (new input).trace.1 <+: tokensOf v := by
  by_cases hd : v.depth ≤ maxDepth
  · have htrace := congrArg Prod.fst (trace_new h hd)
    exact ⟨[], (List.append_nil _).trans htrace⟩
  · obtain ⟨p, f, hp, ht, -⟩ := stuck_jsonText h (Nat.lt_of_not_le hd)
    rw [(Refines.new input).trace_eq, ht]
    exact hp

end Tokenizer

end Kimojio.Json
