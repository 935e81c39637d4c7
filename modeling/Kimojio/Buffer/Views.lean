import Kimojio.Buffer.Refinement
import Kimojio.Transition

/-!
# Kimojio.Buffer.Views

Runs of the operations of a prefix buffer, on the buffer itself, on a view of
it, on a view of the view and so on.

A view has its own `head`, but the memory of the buffer below it. For the
abstract buffer a view is a copy, which is thrown away when the view ends.
The code keeps to that (`buffers_refine`) where an operation of a view writes
nothing over the contents of the buffers below; and this is all that a buffer
has to fear of its views (`view_isolated`).
-/

namespace Kimojio.Buffer

open RingBuffer (overwrite)

/-! ## Nested views -/

/-- The innermost view, and the buffers below it that are borrowed by views. -/
structure Nested where
  top : AnyBuffer
  below : List AnyBuffer
  deriving DecidableEq

inductive Label where
  | op (op : Op)
  | view
  | endView
  deriving DecidableEq, Repr

/-- A step of the code. A view has the memory of the buffer below it; what it
has written is there when it ends. -/
def Nested.step (checked : Bool) (s : Nested) : Label → Option (Output × Nested)
  | .op op => (s.top.call checked op).map (Prod.map id fun top => { s with top })
  | .view =>
    match s.top.viewOf with
    | none => some (.panicked, s)
    | some view => some (.done, ⟨.view view, s.top :: s.below⟩)
  | .endView =>
    match s.below, s.top with
    | b :: below, .view view => some (.done, ⟨b.write 0 view.data.bytes, below⟩)
    | _, _ => none

/-- The abstract buffer under the operations, with the buffers below it. -/
structure AbstractNested where
  top : AbstractBuffer
  below : List AbstractBuffer

def AbstractNested.step (a : AbstractNested) : Label → Option (Output × AbstractNested)
  | .op op => (a.top.call op).map (Prod.map id fun top => { a with top })
  | .view => some (.done, ⟨a.top.view, a.top :: a.below⟩)
  | .endView =>
    match a.below with
    | b :: below => some (.done, ⟨b, below⟩)
    | [] => none

/-! ## The two systems -/

/-- A run of a step function, with the outputs so far. -/
def outputs (start : σ) (step : σ → Label → Option (Output × σ)) :
    System (σ × List Output) Label where
  start := (start, [])
  next s l := (step s.1 l).map fun r => (r.2, s.2 ++ [r.1])

def buffers (checked : Bool) (b : AnyBuffer) : System (Nested × List Output) Label :=
  outputs ⟨b, []⟩ (Nested.step checked)

def abstractBuffers (a : AbstractBuffer) : System (AbstractNested × List Output) Label :=
  outputs ⟨a, []⟩ AbstractNested.step

/-! ## What an operation writes -/

/-- The memory from `stop` on is as it was. -/
structure Spares (stop : Nat) (m m' : Memory) : Prop where
  length : m'.length = m.length
  above : m'.bytes.drop stop = m.bytes.drop stop

theorem Spares.refl (stop : Nat) (m : Memory) : Spares stop m m := ⟨rfl, rfl⟩

theorem spares_copyFromSlice (hstop : value ≠ [] → start + value.length ≤ stop) :
    Spares stop m (m.copyFromSlice start value) := by
  refine ⟨Memory.length_copyFromSlice .., ?_⟩
  by_cases hroom : start + value.length ≤ m.bytes.length
  · rw [Memory.bytes_copyFromSlice hroom]
    by_cases hvalue : value = []
    · rw [hvalue, overwrite, List.append_nil, List.length_nil, Nat.add_zero, List.take_append_drop]
    · exact RingBuffer.drop_overwrite (by omega) (hstop hvalue)
  · rw [Memory.copyFromSlice, dif_neg hroom]

/-- Where the bytes end that an operation writes. -/
def OwnedBuffer.writesUpTo (b : OwnedBuffer) : Op → Nat
  | .reserve value => if value = [] then 0 else b.head
  | .prefixWith value => if value = [] then 0 else b.head
  | .set value => if value = [] then 0 else b.data.length
  | _ => 0

namespace OwnedBuffer

variable {b : OwnedBuffer} {checked : Bool} {op : Op}

/-- What an operation leaves of a buffer: its memory from `stop` on. -/
def Keeps (stop : Nat) (b b' : OwnedBuffer) : Prop := b'.Valid ∧ Spares stop b.data b'.data

theorem keeps_fill (hv : b.Valid) (value : List UInt8) (hstop : value ≠ [] → b.head ≤ stop) :
    Keeps stop b (PrefixBuffer.fill value b).2 := by
  rw [fill_eq]
  split
  · next hle =>
    have hhead := hv.head_le
    refine ⟨⟨?_, ?_⟩, spares_copyFromSlice fun hvalue => ?_⟩
    · show b.head - value.length ≤ b.tail
      omega
    · show b.tail ≤ (b.data.copyFromSlice (b.head - value.length) value).length
      rw [Memory.length_copyFromSlice]
      exact hv.tail_le
    · rw [Nat.sub_add_cancel hle]
      exact hstop hvalue
  · exact ⟨hv, .refl ..⟩

theorem keeps_prefixWith (hv : b.Valid) (value : List UInt8) (hstop : value ≠ [] → b.head ≤ stop) :
    Keeps stop b (PrefixBuffer.prefixWith value b).2 := by
  unfold PrefixBuffer.prefixWith
  split
  · exact keeps_fill hv value hstop
  · exact ⟨hv, .refl ..⟩

theorem keeps_take (hv : b.Valid) (amount stop : Nat) :
    Keeps stop b (PrefixBuffer.take checked amount b).2 := by
  simp only [PrefixBuffer.take]
  split
  · exact ⟨hv, .refl ..⟩
  · next head hhead =>
    obtain ⟨-, hle⟩ := Option.filter_eq_some_iff.mp hhead
    exact ⟨⟨of_decide_eq_true hle, hv.tail_le⟩, .refl ..⟩

theorem callTrait_keeps (hv : b.Valid) (h : callTrait checked b op = some r) :
    Keeps (b.writesUpTo op) b r.2 := by
  cases op with
  | reserve value =>
    cases h
    exact keeps_fill hv value fun hvalue => Nat.le_of_eq (if_neg hvalue).symm
  | prefixWith value =>
    cases h
    exact keeps_prefixWith hv value fun hvalue => Nat.le_of_eq (if_neg hvalue).symm
  | take amount =>
    cases h
    exact keeps_take hv ..
  | takeU32 =>
    cases h
    show Keeps _ b (PrefixBuffer.takeU32 checked b).2
    unfold PrefixBuffer.takeU32
    split
    · have htake : Keeps 0 b (PrefixBuffer.take checked 4 b).2 := keeps_take hv 4 0
      generalize PrefixBuffer.take checked 4 b = r at htake
      obtain ⟨_ | u, b'⟩ := r
      · exact htake
      · exact htake
    · exact ⟨hv, .refl ..⟩
  | keep size => cases h
  | set value =>
    cases h
    have hreset : (⟨b.data.length, b.data.length, b.data⟩ : OwnedBuffer).Valid :=
      ⟨Nat.le_refl _, Nat.le_refl _⟩
    exact keeps_prefixWith hreset value fun hvalue => Nat.le_of_eq (if_neg hvalue).symm
  | reset =>
    cases h
    exact ⟨⟨Nat.le_refl _, Nat.le_refl _⟩, .refl ..⟩

end OwnedBuffer

namespace AnyBuffer

variable {b : AnyBuffer} {checked : Bool} {op : Op}

theorem call_view {view : BufferView} (hv : view.toOwnedBuffer.Valid)
    (h : (AnyBuffer.view view).call checked op = some r) :
    ∃ view', r.2 = .view view' ∧
      OwnedBuffer.Keeps (view.toOwnedBuffer.writesUpTo op) view.toOwnedBuffer
        view'.toOwnedBuffer := by
  obtain ⟨x, hx, rfl⟩ := Option.map_eq_some_iff.mp h
  have hcall := BufferView.implements.callTrait checked op hv
  rw [hx] at hcall
  exact ⟨x.2, rfl, OwnedBuffer.callTrait_keeps hv hcall.symm⟩

theorem rep_write (start : Nat) (value : List UInt8) : (b.write start value).rep =
      ⟨b.rep.head, b.rep.tail, b.rep.data.copyFromSlice start value⟩ := by
  cases b with
  | view b => exact BufferView.implements.write b start value
  | static | owned => rfl

theorem keeps_write (start : Nat) (value : List UInt8) : (b.write start value).keeps = b.keeps := by
  cases b <;> rfl

theorem asSlice_eq : b.asSlice = PrefixBuffer.asSlice b.rep := by
  cases b with
  | view b => exact BufferView.implements.asSlice b
  | static | owned => rfl

/-- The view of a buffer is the part up to its tail. -/
theorem viewOf_eq (hv : b.rep.Valid) :
    b.viewOf = some ⟨b.rep.head, b.rep.data.upTo b.rep.tail⟩ := by
  have hlength : (b.rep.data.upTo b.rep.tail).length = b.rep.tail := by
    show (b.rep.data.bytes.take b.rep.tail).length = _
    rw [List.length_take]
    exact Nat.min_eq_left hv.tail_le
  have havailable : BufferView.withAvailable b.rep.head (b.rep.data.upTo b.rep.tail) = some _ :=
    if_pos (by rw [hlength]; exact hv.head_le)
  cases b with
  | view b =>
    have hall : b.data.upTo b.data.length = b.data := by
      unfold Memory.upTo Memory.length
      simp only [List.take_length]
    show some (BufferView.mk b.head b.data) = some ⟨b.head, b.data.upTo b.data.length⟩
    rw [hall]
  | static | owned => exact havailable

end AnyBuffer

/-! ## The memory below a view -/

/-- The memory `m` of a view, and the buffers below it: with what the views
have written so far, the contents of the buffer at the bottom are as they
were, and if `all` those of all buffers. -/
def Chain (all : Bool) (m : Memory) : List AnyBuffer → Prop
  | [] => True
  | b :: below =>
    m.length = b.rep.tail ∧ b.rep.Valid ∧
      (all = true ∨ below = [] → m.bytes.drop b.rep.head = b.asSlice) ∧
      Chain all (b.rep.data.copyFromSlice 0 m.bytes) below

namespace Chain

variable {all : Bool} {m m' : Memory} {b : AnyBuffer} {below : List AnyBuffer}

/-- The buffer below, after the view has ended. -/
theorem bytes_below (hv : b.rep.Valid) (hlength : m.length = b.rep.tail) :
    (b.rep.data.copyFromSlice 0 m.bytes).bytes = m.bytes ++ b.rep.data.bytes.drop b.rep.tail := by
  have hlength' : m.bytes.length = b.rep.tail := hlength
  have hroom : 0 + m.bytes.length ≤ b.rep.data.bytes.length := by
    rw [Nat.zero_add, hlength']
    exact hv.tail_le
  rw [Memory.bytes_copyFromSlice hroom, overwrite, List.take_zero, List.nil_append, Nat.zero_add,
    hlength']

theorem spares (h : Chain all m below) (hs : Spares stop m m')
    (hstop : ∀ b ∈ (if all then below else below.getLast?.toList), stop ≤ b.rep.head) :
    Chain all m' below := by
  induction below generalizing m m' with
  | nil => trivial
  | cons b below ih =>
    obtain ⟨hlength, hv, hslice, hrest⟩ := h
    have hlength' : m'.length = b.rep.tail := hs.length.trans hlength
    refine ⟨hlength', hv, fun hall => ?_, ih hrest ⟨?_, ?_⟩ fun b' hb' => hstop b' ?_⟩
    · have hle : stop ≤ b.rep.head := by
        refine hstop b ?_
        rcases hall with hall | hlast
        · rw [if_pos hall]
          exact .head _
        · subst hlast
          cases all with
          | true | false => exact .head _
      rw [← hslice hall]
      have hboth := congrArg (List.drop (b.rep.head - stop)) hs.above
      rw [List.drop_drop, List.drop_drop, Nat.add_sub_cancel' hle] at hboth
      exact hboth
    · rw [Memory.length_copyFromSlice, Memory.length_copyFromSlice]
    · rw [bytes_below hv hlength, bytes_below hv hlength', List.drop_append, List.drop_append,
        hs.above]
      have hsame : m'.bytes.length = m.bytes.length := hs.length
      rw [hsame]
    · cases all with
      | true => exact .tail _ hb'
      | false =>
        simp only [Bool.false_eq_true, ↓reduceIte, Option.mem_toList] at hb' ⊢
        rw [List.getLast?_cons, hb']
        rfl

theorem view (h : Chain all b.rep.data below) (hv : b.rep.Valid) :
    Chain all (b.rep.data.upTo b.rep.tail) (b :: below) := by
  have hlength : (b.rep.data.upTo b.rep.tail).length = b.rep.tail := by
    show (b.rep.data.bytes.take b.rep.tail).length = _
    rw [List.length_take]
    exact Nat.min_eq_left hv.tail_le
  have hsame : b.rep.data.copyFromSlice 0 (b.rep.data.upTo b.rep.tail).bytes = b.rep.data := by
    have hbytes := bytes_below hv hlength
    rw [show (b.rep.data.upTo b.rep.tail).bytes = b.rep.data.bytes.take b.rep.tail from rfl,
      List.take_append_drop] at hbytes
    exact Memory.ext hbytes
  refine ⟨hlength, hv, fun _ => ?_, ?_⟩
  · rw [AnyBuffer.asSlice_eq]
    rfl
  · rw [hsame]
    exact h

/-- The contents of the buffer below, when the view has ended. -/
theorem asSlice_below (h : Chain all m (b :: below)) (hall : all = true ∨ below = []) :
    (b.write 0 m.bytes).asSlice = b.asSlice := by
  obtain ⟨hlength, hv, hslice, -⟩ := h
  have hlength' : m.bytes.length = b.rep.tail := hlength
  rw [AnyBuffer.asSlice_eq, AnyBuffer.rep_write, ← hslice hall]
  show ((b.rep.data.copyFromSlice 0 m.bytes).bytes.take b.rep.tail).drop b.rep.head = _
  rw [bytes_below hv hlength, List.take_left' hlength']

theorem valid_below (h : Chain all m (b :: below)) : (b.write 0 m.bytes).rep.Valid := by
  obtain ⟨-, hv, -⟩ := h
  rw [AnyBuffer.rep_write]
  refine ⟨hv.head_le, ?_⟩
  show b.rep.tail ≤ (b.rep.data.copyFromSlice 0 m.bytes).length
  rw [Memory.length_copyFromSlice]
  exact hv.tail_le

theorem chain_below (h : Chain all m (b :: below)) :
    Chain all (b.write 0 m.bytes).rep.data below := by
  rw [AnyBuffer.rep_write]
  exact h.2.2.2

end Chain

/-! ## A buffer and its views -/

/-- The view is live, and no byte is written that belongs to the contents of
the buffer at the bottom. -/
def Nested.sparesOwner (s : Nested) : Label → Bool
  | .op op => s.below.getLast?.any fun b => s.top.rep.writesUpTo op ≤ b.rep.head
  | _ => !s.below.isEmpty

/-- The views of `owner` are live. -/
structure Lent (owner : AnyBuffer) (s : Nested) : Prop where
  views : ∀ b ∈ s.top :: s.below.dropLast, ∃ view, b = .view view
  last : s.below.getLast? = some owner
  valid : s.top.rep.Valid
  chain : Chain false s.top.rep.data s.below

/-- What can be seen of the two buffers is the same. -/
structure SameBuffer (b b' : AnyBuffer) : Prop where
  asSlice : b'.asSlice = b.asSlice
  len : b'.len = b.len
  available : b'.available = b.available

/-- The views of a buffer, from the one that its owner has made. -/
def lent (checked : Bool) (owner : AnyBuffer) (view : BufferView) : System Nested Label where
  start := ⟨.view view, [owner]⟩
  next s l := (s.step checked l).map Prod.snd

namespace Lent

variable {owner : AnyBuffer} {s s' : Nested} {checked : Bool}

theorem start (hv : owner.rep.Valid) (hview : owner.viewOf = some view) :
    Lent owner ⟨.view view, [owner]⟩ := by
  rw [AnyBuffer.viewOf_eq hv] at hview
  cases hview
  have hchain : Chain false (owner.rep.data.upTo owner.rep.tail) [owner] :=
    Chain.view trivial hv
  refine ⟨fun b hb => ⟨_, List.mem_singleton.mp hb⟩, rfl, ⟨?_, Nat.le_refl _⟩, hchain⟩
  show owner.rep.head ≤ (owner.rep.data.upTo owner.rep.tail).length
  rw [hchain.1]
  exact hv.head_le

theorem op (h : Lent owner s) {op : Op} (hspares : s.sparesOwner (.op op) = true)
    (hr : s.top.call checked op = some r) : Lent owner { s with top := r.2 } := by
  obtain ⟨view, hview⟩ := h.views s.top (.head _)
  have hvalid : view.toOwnedBuffer.Valid := by
    have hvalid := h.valid
    rw [hview] at hvalid
    exact hvalid
  have hchain := h.chain
  rw [hview] at hr hchain
  obtain ⟨view', hview', hvalid', hkeeps⟩ := AnyBuffer.call_view hvalid hr
  have hchain' : Chain false view'.data s.below := by
    refine Chain.spares hchain hkeeps fun b hb => ?_
    have hb : s.below.getLast? = some b := by simpa using hb
    simp only [Nested.sparesOwner, hb, Option.any_some, decide_eq_true_eq] at hspares
    rw [hview] at hspares
    exact hspares
  refine ⟨?_, h.last, ?_, ?_⟩
  · rw [hview']
    exact List.forall_mem_cons.mpr ⟨⟨view', rfl⟩, fun b hb => h.views b (.tail _ hb)⟩
  · rw [hview']
    exact hvalid'
  · rw [hview']
    exact hchain'

theorem view (h : Lent owner s) :
    Lent owner ⟨.view ⟨s.top.rep.head, s.top.rep.data.upTo s.top.rep.tail⟩, s.top :: s.below⟩ := by
  have hchain := h.chain.view h.valid
  have hne : s.below ≠ [] := by
    intro hnil
    have hlast := h.last
    rw [hnil] at hlast
    cases hlast
  refine ⟨?_, ?_, ⟨?_, Nat.le_refl _⟩, hchain⟩
  · rw [List.dropLast_cons_of_ne_nil hne]
    exact List.forall_mem_cons.mpr ⟨⟨_, rfl⟩, h.views⟩
  · rw [List.getLast?_cons, h.last]
    rfl
  · show s.top.rep.head ≤ (s.top.rep.data.upTo s.top.rep.tail).length
    rw [hchain.1]
    exact h.valid.head_le

theorem endInner (h : Lent owner s) {view : BufferView} (htop : s.top = .view view)
    (hbelow : s.below = b :: below) (hne : below ≠ []) :
    Lent owner ⟨b.write 0 view.data.bytes, below⟩ := by
  obtain ⟨hviews, hlast, -, hchain⟩ := h
  rw [hbelow] at hviews hlast hchain
  rw [htop] at hchain
  rw [List.dropLast_cons_of_ne_nil hne] at hviews
  obtain ⟨view', rfl⟩ := hviews b (.tail _ (.head _))
  refine ⟨?_, ?_, hchain.valid_below, hchain.chain_below⟩
  · exact List.forall_mem_cons.mpr ⟨⟨_, rfl⟩, fun b hb => hviews b (.tail _ (.tail _ hb))⟩
  · rw [List.getLast?_cons, List.getLast?_eq_some_getLast hne] at hlast
    rw [List.getLast?_eq_some_getLast hne]
    exact hlast

theorem endOuter (h : Lent owner s) {view : BufferView} (htop : s.top = .view view)
    (hbelow : s.below = [owner]) : SameBuffer owner (owner.write 0 view.data.bytes) := by
  have hchain := h.chain
  rw [htop, hbelow] at hchain
  refine ⟨hchain.asSlice_below (.inr rfl), ?_, ?_⟩
  · cases owner with
    | view b => exact congrArg (· - b.head) (Memory.length_copyFromSlice ..)
    | static | owned => rfl
  · cases owner <;> rfl

end Lent

/-- The views are live, or have ended and left no trace. -/
def Lent.Inv (owner : AnyBuffer) (s : Nested) : Prop :=
  Lent owner s ∨ s.below = [] ∧ SameBuffer owner s.top

theorem Lent.Inv.next (h : Lent.Inv owner s) (hspares : s.sparesOwner l = true)
    (hs : (s.step checked l).map Prod.snd = some s') : Lent.Inv owner s' := by
  rcases h with h | ⟨hnil, -⟩
  · cases l with
    | op op =>
      obtain ⟨x, hx, rfl⟩ := Option.map_eq_some_iff.mp hs
      obtain ⟨r, hr, rfl⟩ := Option.map_eq_some_iff.mp hx
      exact .inl (h.op hspares hr)
    | view =>
      rw [Nested.step, AnyBuffer.viewOf_eq h.valid] at hs
      cases hs
      exact .inl h.view
    | endView =>
      obtain ⟨view, hview⟩ := h.views s.top (.head _)
      obtain ⟨top, below⟩ := s
      cases hview
      cases below with
      | nil => cases hs
      | cons b below =>
        cases hs
        cases below with
        | nil =>
          cases h.last
          exact .inr ⟨rfl, h.endOuter rfl rfl⟩
        | cons b' below => exact .inl (h.endInner rfl rfl nofun)
  · -- nothing is done to a view that has ended
    cases l with
    | op op =>
      rw [Nested.sparesOwner, hnil] at hspares
      cases hspares
    | view | endView =>
      have hlive : (!s.below.isEmpty) = true := hspares
      rw [hnil] at hlive
      cases hlive

/-- **Views leave no trace.** Whatever is done with the view of a buffer and
the views of that view, when it has ended the buffer is the same, if no
operation writes to the contents of the buffer. -/
theorem view_isolated (checked : Bool) (owner : AnyBuffer) (hv : owner.rep.Valid)
    (view : BufferView)
    (hview : owner.viewOf = some view) (s : Nested)
    (h : (lent checked owner view).Reaches (fun s l => s.sparesOwner l = true) s)
    (hended : s.below = []) : SameBuffer owner s.top := by
  have hinv := h.invariant (P := Lent.Inv owner) (.inl (.start hv hview))
    fun _ _ _ hinv hspares hs => hinv.next hspares hs
  rcases hinv with hlent | ⟨-, hsame⟩
  · have hlast := hlent.last
    rw [hended] at hlast
    cases hlast
  · exact hsame

/-- A buffer of eight bytes of which the last two are initialized, and its
view. -/
def packet : OwnedBuffer := ⟨6, 8, ⟨[0, 0, 0, 0, 0, 0, 1, 2], by decide⟩⟩

def packetView : BufferView := ⟨6, packet.data⟩

/-- A header goes in front of the contents of a buffer, and is taken off
again by a view of the view. -/
theorem view_isolated_header : ∃ s : Nested,
      (lent true (.owned packet) packetView).Reaches (fun s l => s.sparesOwner l = true) s ∧
      s.below = [] ∧ s.top.asSlice = [1, 2] := by
  have hrun : (((lent true (.owned packet) packetView).restrict Nested.sparesOwner).run
      (lent true (.owned packet) packetView).start
      [.op (.prefixWith [7, 7, 7, 7]), .view, .op .takeU32, .op (.take 1), .endView, .op .reset,
        .endView]).any (fun s => s.below = []) = true := by
    decide +kernel
  obtain ⟨s, hreach, hs⟩ := System.exists_restrict_run hrun
  have hsame := view_isolated true (.owned packet) ⟨by decide, by decide⟩ packetView rfl s hreach
    (of_decide_eq_true hs)
  exact ⟨s, hreach, of_decide_eq_true hs, hsame.asSlice⟩

/-- A view that takes two bytes and puts others in their place has changed the
buffer below it. -/
theorem exists_view_overwrites :
    ∃ s : Nested, (lent true (.owned packet) packetView).Reaches (fun _ _ => True) s ∧
      s.below = [] ∧ s.top.asSlice = [8, 9] := by
  have hrun : ((lent true (.owned packet) packetView).run
      (lent true (.owned packet) packetView).start
      [.op (.take 2), .op (.prefixWith [8, 9]), .endView]).any
        (fun s => s.below = [] ∧ s.top.asSlice = [8, 9]) = true := by
    decide +kernel
  obtain ⟨s, hreach, hs⟩ := System.exists_run hrun
  exact ⟨s, hreach, of_decide_eq_true hs⟩

/-! ## The refinement -/

/-- The operation is one that the abstract buffer knows, and does not write
over the contents of a buffer below. -/
def Nested.careful (checked : Bool) (s : Nested) : Label → Bool
  | .op op =>
    s.top.rep.accepts checked op && s.below.all fun b => s.top.rep.writesUpTo op ≤ b.rep.head
  | _ => true

/-- Each of the buffers holds what its abstract buffer holds. -/
def RepresentsAll : List AnyBuffer → List AbstractBuffer → Prop
  | [], [] => True
  | b :: bs, a :: as => Represents b a ∧ RepresentsAll bs as
  | _, _ => False

/-- The buffers hold what the abstract buffers hold. -/
structure Refines (s : Nested) (a : AbstractNested) : Prop where
  top : Represents s.top a.top
  below : RepresentsAll s.below a.below
  views : s.below ≠ [] → ∀ b ∈ s.top :: s.below.dropLast, ∃ view, b = .view view
  chain : Chain true s.top.rep.data s.below

namespace Refines

variable {s s' : Nested} {a : AbstractNested} {checked : Bool}

/-- Both do the same, and hold the same then. -/
def Agrees (r : Output × Nested) (r' : Output × AbstractNested) : Prop :=
  r.1 = r'.1 ∧ Refines r.2 r'.2

theorem op (h : Refines s a) {op : Op} (hcareful : s.careful checked (.op op) = true) :
    Option.Rel Agrees (s.step checked (.op op)) (a.step (.op op)) := by
  simp only [Nested.careful, Bool.and_eq_true, List.all_eq_true, decide_eq_true_eq] at hcareful
  have hcall := h.top.call hcareful.1
  rw [Nested.step, AbstractNested.step]
  generalize hr : s.top.call checked op = r at hcall
  generalize a.top.call op = r' at hcall
  cases hcall with
  | none => exact .none
  | @some x y hxy =>
    by_cases hne : s.below = []
    · refine .some ⟨hxy.1, hxy.2, h.below, fun h => absurd hne h, ?_⟩
      show Chain true _ s.below
      rw [hne]
      trivial
    · -- a buffer with others below it is a view
      obtain ⟨view, hview⟩ := h.views hne s.top (.head _)
      have hvalid : s.top.rep.Valid := h.top.valid
      have hchain := h.chain
      rw [hview] at hr hvalid hchain hcareful
      obtain ⟨view', hview', -, hkeeps⟩ := AnyBuffer.call_view hvalid hr
      refine .some ⟨hxy.1, hxy.2, h.below, fun _ => ?_, ?_⟩
      · rw [List.forall_mem_cons]
        exact ⟨⟨view', hview'⟩, fun b hb => h.views hne b (.tail _ hb)⟩
      · show Chain true x.2.rep.data s.below
        rw [hview']
        exact hchain.spares hkeeps fun b hb => hcareful.2 b hb

theorem view (h : Refines s a) : Option.Rel Agrees (s.step checked .view) (a.step .view) := by
  have hvalid := h.top.valid
  have hchain := h.chain.view hvalid
  unfold Nested.step AbstractNested.step
  rw [AnyBuffer.viewOf_eq hvalid]
  refine .some ⟨rfl, ⟨⟨⟨?_, Nat.le_refl _⟩, ?_, ?_, h.top.available⟩, rfl⟩, ⟨h.top, h.below⟩,
    fun _ => ?_, hchain⟩
  · show s.top.rep.head ≤ (s.top.rep.data.upTo s.top.rep.tail).length
    rw [hchain.1]
    exact hvalid.head_le
  · show a.top.available + a.top.bytes.length = (s.top.rep.data.upTo s.top.rep.tail).length
    have hlength := h.top.length_bytes
    have hhead := hvalid.head_le
    rw [hchain.1, h.top.available]
    omega
  · show a.top.bytes = PrefixBuffer.asSlice (BufferView.toOwnedBuffer _)
    rw [h.top.bytes, ← BufferView.implements.asSlice]
    rfl
  · refine List.forall_mem_cons.mpr ⟨⟨_, rfl⟩, fun b hb => ?_⟩
    by_cases hne : s.below = []
    · rw [hne] at hb
      cases hb
    · rw [List.dropLast_cons_of_ne_nil hne] at hb
      exact h.views hne b hb

theorem endView (h : Refines s a) :
    Option.Rel Agrees (s.step checked .endView) (a.step .endView) := by
  obtain ⟨top, below⟩ := s
  obtain ⟨top', below'⟩ := a
  cases below with
  | nil =>
    cases below' with
    | nil => exact .none
    | cons b' below' => exact h.below.elim
  | cons b below =>
    cases below' with
    | nil => exact h.below.elim
    | cons b' below' =>
      obtain ⟨view, hview⟩ := h.views nofun top (.head _)
      cases hview
      have hb : Represents b b' := h.below.1
      have hchain := h.chain
      refine .some ⟨rfl, ⟨⟨hchain.valid_below, ?_, ?_, ?_⟩, ?_⟩, h.below.2, fun hne => ?_,
        hchain.chain_below⟩
      · rw [AnyBuffer.rep_write]
        show b'.capacity = (b.rep.data.copyFromSlice 0 view.data.bytes).length
        rw [Memory.length_copyFromSlice]
        exact hb.capacity
      · have hslice : (b.write 0 view.data.bytes).asSlice = b.asSlice :=
          hchain.asSlice_below (.inl rfl)
        rw [← AnyBuffer.asSlice_eq]
        show b'.bytes = (b.write 0 view.data.bytes).asSlice
        rw [hslice, AnyBuffer.asSlice_eq]
        exact hb.bytes
      · rw [AnyBuffer.rep_write]
        exact hb.available
      · rw [AnyBuffer.keeps_write]
        exact hb.keeps
      · have hviews := h.views nofun
        rw [List.dropLast_cons_of_ne_nil hne] at hviews
        obtain ⟨view', rfl⟩ := hviews b (.tail _ (.head _))
        exact List.forall_mem_cons.mpr ⟨⟨_, rfl⟩, fun b hb => hviews b (.tail _ (.tail _ hb))⟩

theorem step (h : Refines s a) (hcareful : s.careful checked l = true) :
    Option.Rel Agrees (s.step checked l) (a.step l) := by
  cases l with
  | op op => exact h.op hcareful
  | view => exact h.view
  | endView => exact h.endView

theorem start {a : AbstractBuffer} (h : Represents b a) : Refines ⟨b, []⟩ ⟨a, []⟩ :=
  ⟨h, trivial, fun hne => absurd rfl hne, trivial⟩

end Refines

/-- The buffers hold the same, and have answered the same so far. -/
def SameRun (s : Nested × List Output) (a : AbstractNested × List Output) : Prop :=
  s.2 = a.2 ∧ Refines s.1 a.1

theorem SameRun.next (h : SameRun s a) (hcareful : s.1.careful checked l = true) :
    Option.Rel SameRun ((buffers checked b).next s l) ((abstractBuffers a₀).next a l) := by
  have hstep := h.2.step hcareful
  show Option.Rel SameRun ((s.1.step checked l).map _) ((a.1.step l).map _)
  generalize s.1.step checked l = r at hstep
  generalize a.1.step l = r' at hstep
  cases hstep with
  | none => exact .none
  | @some x y hr =>
    refine .some ⟨?_, hr.2⟩
    show s.2 ++ [x.1] = a.2 ++ [y.1]
    rw [h.1, hr.1]

/-! ## New buffers -/

/-- The ways to make a buffer. -/
inductive Start where
  | viewNew (data : Memory)
  | viewWithAvailable (available : UInt64) (data : Memory)
  | viewWithPrefix (data : Memory) (value : List UInt8)
  | staticNew (size : UInt64)
  | staticWith (size : UInt64) (value : List UInt8)
  | ownedNew (size : UInt64)
  | ownedWith (size : UInt64) (value : List UInt8)

namespace Start

/-- A buffer that is made by a method; there is none after a panic. -/
def made (wrap : β → AnyBuffer) : Option Unit × β → Option AnyBuffer
  | (none, _) => none
  | (some (), b) => some (wrap b)

/-- The code; `none` is a panic. -/
def make (checked : Bool) : Start → Option AnyBuffer
  | .viewNew data => some (.view (.new data))
  | .viewWithAvailable available data =>
    (BufferView.withAvailable available.toNat data).map .view
  | .viewWithPrefix data value => (BufferView.withPrefix data value).map .view
  | .staticNew size => some (.static size .new)
  | .staticWith size value => made (.static size) (StaticBuffer.withValue checked value)
  | .ownedNew size => some (.owned (.new size))
  | .ownedWith size value => made .owned (OwnedBuffer.withValue checked size value)

/-- The new abstract buffer, with `value` at its end. -/
def fresh (capacity : Nat) (value : List UInt8) (keeps : Bool) : Option AbstractBuffer :=
  if h : value.length ≤ capacity then
    some ⟨capacity, value, capacity - value.length, keeps, by omega⟩
  else none

def abstract : Start → Option AbstractBuffer
  | .viewNew data => fresh data.length [] false
  | .viewWithAvailable available data =>
    if available.toNat ≤ data.length then
      fresh data.length (data.bytes.drop available.toNat) false
    else none
  | .viewWithPrefix data value => fresh data.length value false
  | .staticNew size => fresh size.toNat [] true
  | .staticWith size value => fresh size.toNat value true
  | .ownedNew size => fresh size.toNat [] true
  | .ownedWith size value => fresh size.toNat value true

theorem holds_fresh (m : Memory) (keeps : Bool) (hfits) :
    Holds ⟨m.length, m.length, m⟩ ⟨m.length, [], m.length, keeps, hfits⟩ where
  valid := ⟨Nat.le_refl _, Nat.le_refl _⟩
  capacity := rfl
  bytes := by
    show [] = (m.bytes.take m.bytes.length).drop m.bytes.length
    rw [List.take_length, List.drop_length]
  available := rfl

theorem represents_set [PrefixBuffer β] (himp : Implements β fun b => (wrap b).rep)
    (hwrap : ∀ b b', (wrap b).keeps = (wrap b').keeps) (h : Represents (wrap b) a)
    (checked : Bool) (value : List UInt8) :
    Option.Rel Represents (made wrap (PrefixBuffer.set checked value b))
      (fresh a.capacity value a.keeps) := by
  have hpush : Holds.Agrees
      ((PrefixBuffer.set checked value (wrap b).rep).map Output.ofUnit id) _ :=
    h.toHolds.reset.prefixWith value
  rw [← himp.set checked value h.valid, AbstractBuffer.push] at hpush
  generalize PrefixBuffer.set checked value b = r at hpush
  unfold fresh
  by_cases hfits : value.length ≤ a.capacity
  · have hroom : value.length ≤ (a.replace [] (Nat.zero_le _)).available := hfits
    rw [dif_pos hroom] at hpush
    rw [dif_pos hfits]
    obtain ⟨_ | _, b'⟩ := r
    · cases hpush.1
    · refine .some ⟨⟨hpush.2.valid, hpush.2.capacity, ?_, hpush.2.available⟩, ?_⟩
      · exact (List.append_nil value).symm.trans hpush.2.bytes
      · exact h.keeps.trans (hwrap b b')
  · have hroom : ¬value.length ≤ (a.replace [] (Nat.zero_le _)).available := hfits
    rw [dif_neg hroom] at hpush
    rw [dif_neg hfits]
    obtain ⟨_ | _, b'⟩ := r
    · exact .none
    · cases hpush.1

theorem represents_withAvailable (available : Nat) (data : Memory) :
    Option.Rel Represents ((BufferView.withAvailable available data).map .view)
      (if available ≤ data.length then fresh data.length (data.bytes.drop available) false
      else none) := by
  unfold BufferView.withAvailable
  split
  · next hle =>
    have hlength : (data.bytes.drop available).length = data.length - available :=
      List.length_drop
    have hfits : (data.bytes.drop available).length ≤ data.length := by omega
    rw [fresh, dif_pos hfits]
    refine .some ⟨⟨⟨hle, Nat.le_refl _⟩, rfl, BufferView.implements.asSlice ⟨available, data⟩, ?_⟩,
      rfl⟩
    show data.length - (data.bytes.drop available).length = available
    omega
  · exact .none

theorem represents_withPrefix (data : Memory) (value : List UInt8) :
    Option.Rel Represents ((BufferView.withPrefix data value).map .view)
      (fresh data.length value false) := by
  unfold BufferView.withPrefix fresh
  split
  · next hle =>
    -- the value is put in front of nothing
    have hpush := (holds_fresh data false (Nat.le_refl _)).push value
    rw [OwnedBuffer.fill_eq, if_pos hle, AbstractBuffer.push, dif_pos hle] at hpush
    have hrep : (AnyBuffer.view ⟨data.length - value.length,
        data.copyFromSlice (data.length - value.length) value⟩).rep = _ :=
      congrArg (OwnedBuffer.mk _ · _) (Memory.length_copyFromSlice ..)
    refine .some ⟨?_, rfl⟩
    rw [hrep]
    exact ⟨hpush.2.valid, hpush.2.capacity, (List.append_nil value).symm.trans hpush.2.bytes,
      hpush.2.available⟩
  · exact .none

theorem represents (checked : Bool) (start : Start) :
    Option.Rel Represents (start.make checked) start.abstract := by
  have hlength (size : UInt64) : (Memory.zeroed size).length = size.toNat := List.length_replicate
  have hstatic (size : UInt64) : Represents (.static size .new) ⟨size.toNat, [], size.toNat, true,
      Nat.le_refl _⟩ := by
    have hfresh := holds_fresh (.zeroed size) true (Nat.le_refl _)
    simp only [hlength] at hfresh
    exact ⟨hfresh, rfl⟩
  have howned (size : UInt64) : Represents (.owned (.new size)) ⟨size.toNat, [], size.toNat, true,
      Nat.le_refl _⟩ := by
    exact ⟨(hstatic size).toHolds, rfl⟩
  cases start with
  | viewNew data => exact .some ⟨holds_fresh data false (Nat.le_refl _), rfl⟩
  | viewWithAvailable available data => exact represents_withAvailable available.toNat data
  | viewWithPrefix data value => exact represents_withPrefix data value
  | staticNew size => exact .some (hstatic size)
  | staticWith size value =>
    exact represents_set StaticBuffer.implements (fun _ _ => rfl) (hstatic size) checked value
  | ownedNew size => exact .some (howned size)
  | ownedWith size value =>
    exact represents_set OwnedBuffer.implements (fun _ _ => rfl) (howned size) checked value

end Start

/-- **The refinement.** A buffer of any kind, its view, a view of the view
and so on answer every list of operations as the abstract buffer does, and
hold what it holds then, if every operation is one that the abstract buffer
knows and writes over no contents of a buffer below. The next operation
finds both in the same state, whatever it is. -/
theorem buffers_refine (checked : Bool) (start : Start) (b : AnyBuffer)
    (hb : start.make checked = some b) (labels : List Label) (s : Nested × List Output)
    (h : ((buffers checked b).restrict fun s l => s.1.careful checked l).run
      (buffers checked b).start labels = some s) :
    ∃ a₀ a, start.abstract = some a₀ ∧
      (abstractBuffers a₀).run (abstractBuffers a₀).start labels = some a ∧
      s.2 = a.2 ∧ Refines s.1 a.1 ∧
      ∀ l, s.1.careful checked l = true →
        Option.Rel Refines.Agrees (s.1.step checked l) (a.1.step l) := by
  have hstart := start.represents checked
  rw [hb] at hstart
  generalize ha : start.abstract = a₀ at hstart
  cases hstart with
  | @some _ a₀ hrep =>
    have hR : SameRun (buffers checked b).start (abstractBuffers a₀).start :=
      ⟨rfl, .start hrep⟩
    obtain ⟨a, hrun, hsame, hrefines⟩ :=
      System.run_rel (fun _ _ _ hR hcareful => hR.next hcareful) hR h
    exact ⟨a₀, a, rfl, hrun, hsame, hrefines, fun _ hcareful => hrefines.step hcareful⟩

/-- A word that is put in front of the contents, and taken off again in a
view; the last `take` asks for too much. -/
theorem buffers_refine_word :
    ∃ s, ((buffers true (.owned packet)).restrict fun s l => s.1.careful true l).run
        (buffers true (.owned packet)).start
        [.op (.prefixWith [7, 0, 0, 0]), .view, .op .takeU32, .op (.take 3), .endView] = some s ∧
      s.2 = [.done, .done, .word 7, .panicked, .done] ∧
      ∃ a : AbstractNested × List Output, s.2 = a.2 ∧ a.1.top.bytes = [7, 0, 0, 0, 1, 2] := by
  have hmake : (Start.ownedWith 8 [1, 2]).make true = some (.owned packet) := by decide +kernel
  generalize hrun : ((buffers true (.owned packet)).restrict fun s l => s.1.careful true l).run
    (buffers true (.owned packet)).start
    [.op (.prefixWith [7, 0, 0, 0]), .view, .op .takeU32, .op (.take 3), .endView] = r
  have hend : r.any (fun s => s.2 = [.done, .done, .word 7, .panicked, .done] ∧
      s.1.top.rep = ⟨2, 8, ⟨[0, 0, 7, 0, 0, 0, 1, 2], by decide⟩⟩) = true := by
    rw [← hrun]
    decide +kernel
  obtain ⟨s, rfl, hs⟩ := (Option.any_eq_true _ _).mp hend
  obtain ⟨houtputs, hrep⟩ := of_decide_eq_true hs
  obtain ⟨_, a, -, -, hsame, hrefines, -⟩ := buffers_refine true _ _ hmake _ s hrun
  refine ⟨s, rfl, houtputs, a, hsame, ?_⟩
  rw [hrefines.top.bytes, hrep]
  rfl

/-- A `set` that is too large panics when the contents are gone. -/
theorem exists_set_clears :
    ∃ b : AnyBuffer, (Start.ownedWith 4 [1, 2]).make true = some b ∧ b.asSlice = [1, 2] ∧
      (b.call true (.set [1, 2, 3, 4, 5])).any
        (fun r => r.1 = .panicked ∧ r.2.asSlice = []) = true :=
  ⟨.owned ⟨2, 4, ⟨[0, 0, 1, 2], by decide⟩⟩, by decide +kernel, rfl, by decide +kernel⟩

-- without overflow checks `take` moves `head` back over a byte that was never initialized
example : ((AnyBuffer.owned packet).call false (.take (-1))).any
    (fun r => r.1 = .done ∧ r.2.asSlice = [0, 1, 2]) = true := by decide +kernel

end Kimojio.Buffer
