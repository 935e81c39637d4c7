/-!
# Kimojio.Runtime.HandleTable

Model of `kimojio/src/handle_table.rs`: a table that gives out indices, with a
free list that is threaded through its free slots.

A `None` of an operation is a panic: an `unreachable!()` arm, a slot out of
bounds, or a count below zero. Over the model stands what the table is for, a
finite map that remembers the indices freed (`Map`, `MapStep`). Every sequence
of operations on the table is one on the map, and none of them panics
(`run_new`).
-/

namespace Kimojio.Runtime

/-- An index into a `HandleTable`: not zero. -/
structure Index where
  get : Nat
  pos : 0 < get
  deriving DecidableEq

namespace Index

/-- The position in the table. -/
def offset (i : Index) : Nat := i.get - 1

/-- The index of a position. -/
def ofOffset (offset : Nat) : Index := ⟨offset + 1, Nat.succ_pos _⟩

@[simp] theorem offset_ofOffset (k : Nat) : (ofOffset k).offset = k := rfl

@[simp] theorem ofOffset_offset (i : Index) : ofOffset i.offset = i := by
  obtain ⟨n, hn⟩ := i
  simp only [offset, ofOffset, Index.mk.injEq]
  omega

theorem get_inj {i j : Index} (h : i.get = j.get) : i = j := by
  obtain ⟨n, hn⟩ := i
  cases h
  rfl

theorem offset_inj {i j : Index} (h : i.offset = j.offset) : i = j := by
  rw [← ofOffset_offset i, h, ofOffset_offset]

end Index

/-- A slot, either free or containing a value. -/
inductive Slot (T : Type u) where
  | free (nextFree : Option Index)
  | used (value : T)

/-- Whether the slot contains a value. -/
def Slot.isUsed : Slot T → Bool
  | .free _ => false
  | .used _ => true

/-- The value that the slot contains. -/
def Slot.value? : Slot T → Option T
  | .free _ => none
  | .used value => some value

/-- A table that assigns indices to values. -/
structure HandleTable (T : Type u) where
  data : List (Slot T)
  freeList : Option Index
  requests : Nat

namespace HandleTable

/-- A new empty table. -/
def new : HandleTable T := ⟨[], none, 0⟩

/-- Removes all entries. -/
def clear (_ : HandleTable T) : HandleTable T := ⟨[], none, 0⟩

/-- The number of values in the table. -/
def len (t : HandleTable T) : Nat := t.requests

/-- Inserts the value that a function makes for its index. -/
def insertFn (t : HandleTable T) (valueFn : Index → T) : Option (Index × HandleTable T) :=
  let t := { t with requests := t.requests + 1 }
  match t.freeList with
  | some index =>
    -- the slot is replaced before it is looked at
    match t.data[index.offset]? with
    | some (.free nextFree) =>
      some (index, { t with
        data := t.data.set index.offset (.used (valueFn index))
        freeList := nextFree })
    | _ => none
  | none =>
    let index := Index.ofOffset t.data.length
    some (index, { t with data := t.data ++ [.used (valueFn index)] })

/-- Inserts a value. -/
def insert (t : HandleTable T) (value : T) : Option (Index × HandleTable T) :=
  t.insertFn fun _ => value

/-- The value at an index. -/
def get (t : HandleTable T) (index : Index) : Option T :=
  match t.data[index.offset]? with
  | some (.used value) => some value
  | _ => none

/-- Removes the value at an index. -/
def remove (t : HandleTable T) (index : Index) : Option (Option T × HandleTable T) :=
  match t.data[index.offset]? with
  | none => some (none, t)
  | some (.free _) => some (none, t)
  | some (.used value) =>
    if t.requests = 0 then none
    else
      some (some value,
        { data := t.data.set index.offset (.free t.freeList)
          freeList := some index
          requests := t.requests - 1 })

/-- Whether there are no values. -/
def isEmpty (t : HandleTable T) : Bool := t.requests = 0

/-- The pair of a slot at its position, unless it is free. -/
def pair : Slot T × Nat → Option (Index × T)
  | (.used value, offset) => some (.ofOffset offset, value)
  | (.free _, _) => none

/-- The pairs of indices and values. -/
def iter (t : HandleTable T) : List (Index × T) := t.data.zipIdx.filterMap pair

/-- The indices in use. -/
def indexes (t : HandleTable T) : List Index :=
  t.data.zipIdx.filterMap fun p => if p.1.isUsed then some (.ofOffset p.2) else none

/-- Removes all values, and gives the pairs. -/
def drain (t : HandleTable T) : List (Index × T) × HandleTable T := (t.iter, ⟨[], none, 0⟩)

end HandleTable

/-! ## operations -/

/-- The operations of the table. -/
inductive Op (T : Type u) where
  | insert (value : T)
  | insertFn (valueFn : Index → T)
  | get (index : Index)
  | remove (index : Index)
  | clear
  | drain
  | len
  | isEmpty
  | iter
  | indexes

/-- What an operation returns. -/
inductive Out (T : Type u) where
  | unit
  | index (index : Index)
  | value (value : Option T)
  | pairs (pairs : List (Index × T))
  | indexes (indexes : List Index)
  | len (len : Nat)
  | isEmpty (isEmpty : Bool)

namespace HandleTable

/-- Makes one call. -/
def call (t : HandleTable T) : Op T → Option (Out T × HandleTable T)
  | .insert value => (t.insert value).map fun (index, t) => (.index index, t)
  | .insertFn valueFn => (t.insertFn valueFn).map fun (index, t) => (.index index, t)
  | .get index => some (.value (t.get index), t)
  | .remove index => (t.remove index).map fun (value, t) => (.value value, t)
  | .clear => some (.unit, t.clear)
  | .drain => some (.pairs t.drain.1, t.drain.2)
  | .len => some (.len t.len, t)
  | .isEmpty => some (.isEmpty t.isEmpty, t)
  | .iter => some (.pairs t.iter, t)
  | .indexes => some (.indexes t.indexes, t)

/-- Makes calls one after the other. -/
def run (t : HandleTable T) : List (Op T) → Option (List (Out T) × HandleTable T)
  | [] => some ([], t)
  | op :: ops => do
    let (out, t) ← t.call op
    let (outs, t) ← t.run ops
    return (out :: outs, t)

end HandleTable

/-! ## the finite map -/

/-- A finite map, with the indices that were freed and not taken again, the
most recent first. -/
structure Map (T : Type u) where
  value : Index → Option T
  freed : List Index

namespace Map

/-- The empty map. -/
def empty : Map T := ⟨fun _ => none, []⟩

/-- The map with one entry changed. -/
def set (m : Map T) (i : Index) (v : Option T) (freed : List Index) : Map T :=
  ⟨fun j => if j = i then v else m.value j, freed⟩

/-- The pairs of the map, by increasing index. -/
structure Enumerates (m : Map T) (pairs : List (Index × T)) : Prop where
  mem_iff : ∀ i v, (i, v) ∈ pairs ↔ m.value i = some v
  sorted : pairs.Pairwise fun p q => p.1.get < q.1.get

end Map

open Map (Enumerates)

/-- What the operations do to the map. An index that is given out is not in
the map, and it is the one freed last if there is one. -/
inductive MapStep : Map T → Op T → Out T → Map T → Prop where
  | insertFn : m.value i = none → (∀ j ∈ m.freed.head?, i = j) →
      MapStep m (.insertFn valueFn) (.index i) (m.set i (some (valueFn i)) m.freed.tail)
  | insert : m.value i = none → (∀ j ∈ m.freed.head?, i = j) →
      MapStep m (.insert v) (.index i) (m.set i (some v) m.freed.tail)
  | get : MapStep m (.get i) (.value (m.value i)) m
  | removeSome : m.value i = some v →
      MapStep m (.remove i) (.value (some v)) (m.set i none (i :: m.freed))
  | removeNone : m.value i = none → MapStep m (.remove i) (.value none) m
  | clear : MapStep m .clear .unit .empty
  | drain : Enumerates m pairs → MapStep m .drain (.pairs pairs) .empty
  | len : Enumerates m pairs → MapStep m .len (.len pairs.length) m
  | isEmpty : Enumerates m pairs → MapStep m .isEmpty (.isEmpty pairs.isEmpty) m
  | iter : Enumerates m pairs → MapStep m .iter (.pairs pairs) m
  | indexes : Enumerates m pairs → MapStep m .indexes (.indexes (pairs.map Prod.fst)) m

/-- Operations one after the other. -/
inductive MapRuns : Map T → List (Op T) → List (Out T) → Map T → Prop where
  | nil : MapRuns m [] [] m
  | cons : MapStep m op out m₁ → MapRuns m₁ ops outs m₂ → MapRuns m (op :: ops) (out :: outs) m₂

/-! ## the free list -/

/-- The free list from `head` on: it ends, and its slots are free. -/
inductive Chain (data : List (Slot T)) : Option Index → List Index → Prop where
  | nil : Chain data none []
  | cons : data[i.offset]? = some (.free next) → Chain data next rest →
      Chain data (some i) (i :: rest)

/-- The table stands for the map. The free list has no cycle and lists exactly
the free slots. -/
structure Represents (t : HandleTable T) (m : Map T) : Prop where
  get_eq : ∀ i, t.get i = m.value i
  chain : Chain t.data t.freeList m.freed
  nodup : m.freed.Nodup
  free_iff : ∀ i, i ∈ m.freed ↔ ∃ next, t.data[i.offset]? = some (.free next)
  requests_eq : t.requests = t.data.countP Slot.isUsed

/-- The free list looks at its own slots only. -/
theorem Chain.congr (h : Chain data head freed)
    (hsame : ∀ i ∈ freed, data'[i.offset]? = data[i.offset]?) : Chain data' head freed := by
  induction h with
  | nil => exact .nil
  | cons hi _ ih =>
    refine .cons ((hsame _ (.head _)).trans hi) (ih fun j hj => ?_)
    exact hsame j (.tail _ hj)

theorem Chain.of_some (h : Chain data (some i) freed) :
    ∃ next rest, freed = i :: rest ∧ data[i.offset]? = some (.free next) ∧
      Chain data next rest := by
  cases h with
  | cons hslot hrest => exact ⟨_, _, rfl, hslot, hrest⟩

namespace HandleTable

theorem get_eq_some {t : HandleTable T} :
    t.get i = some v ↔ t.data[i.offset]? = some (.used v) := by
  unfold get
  split <;> simp_all

theorem represents_new : Represents (new : HandleTable T) .empty where
  get_eq _ := rfl
  chain := .nil
  nodup := .nil
  free_iff i := by simp [new, Map.empty]
  requests_eq := rfl

/-- A slot that is set, seen through the indices. -/
theorem getElem?_set_index {data : List (Slot T)} (h : i.offset < data.length) (s' : Slot T)
    (j : Index) :
    (data.set i.offset s')[j.offset]? = if j = i then some s' else data[j.offset]? := by
  split
  · next heq =>
    subst heq
    simp [h]
  · next hne =>
    rw [List.getElem?_set_ne]
    intro heq
    exact hne (Index.offset_inj heq.symm)

/-- A slot that is added, seen through the indices. -/
theorem getElem?_append_index (data : List (Slot T)) (s : Slot T) (j : Index) :
    (data ++ [s])[j.offset]? = if j = .ofOffset data.length then some s else data[j.offset]? := by
  split
  · next heq =>
    subst heq
    exact List.getElem?_concat_length
  · next hne =>
    by_cases hlt : j.offset < data.length
    · exact List.getElem?_append_left hlt
    · have hgt : data.length < j.offset := by
        have : j.offset ≠ data.length := fun heq => hne (Index.offset_inj heq)
        omega
      rw [List.getElem?_eq_none (by simp; omega), List.getElem?_eq_none (by omega)]

/-- A table whose slots differ at `i` only stands for a map that does. -/
theorem represents_of_data {m : Map T} (h : Represents t m)
    (hdata : ∀ j : Index, t'.data[j.offset]? = if j = i then some s else t.data[j.offset]?)
    (hchain : Chain t'.data t'.freeList freed) (hnodup : freed.Nodup)
    (hfreed : ∀ j, j ∈ freed ↔ if j = i then s.isUsed = false else j ∈ m.freed)
    (hrequests : t'.requests = t'.data.countP Slot.isUsed) :
    Represents t' (m.set i s.value? freed) where
  get_eq j := by
    rw [get, hdata, Map.set]
    by_cases hj : j = i
    · simp only [if_pos hj]
      cases s <;> rfl
    · simp only [if_neg hj]
      exact h.get_eq j
  chain := hchain
  nodup := hnodup
  free_iff j := by
    rw [Map.set, hfreed, hdata]
    by_cases hj : j = i
    · simp only [if_pos hj]
      cases s <;> simp [Slot.isUsed]
    · simp only [if_neg hj]
      exact h.free_iff j
  requests_eq := hrequests

/-! ### insert -/

theorem insertFn_represents {m : Map T} (h : Represents t m)
    (valueFn : Index → T) : ∃ i t', t.insertFn valueFn = some (i, t') ∧ m.value i = none ∧
      (∀ j ∈ m.freed.head?, i = j) ∧ Represents t' (m.set i (some (valueFn i)) m.freed.tail) := by
  obtain ⟨value, freed⟩ := m
  have hchain := h.chain
  unfold insertFn
  revert hchain
  rcases hfree : t.freeList with _ | i
  · intro hchain
    cases hchain
    have hnone : t.get (.ofOffset t.data.length) = none := by
      rw [get, Index.offset_ofOffset, List.getElem?_eq_none (Nat.le_refl _)]
    refine ⟨_, _, rfl, (h.get_eq _).symm.trans hnone, by simp, ?_⟩
    refine represents_of_data (s := .used (valueFn (.ofOffset t.data.length))) h
      (getElem?_append_index t.data _) ?_ .nil ?_ ?_
    · exact .nil
    · intro j
      simp [Slot.isUsed]
    · simp [h.requests_eq, Slot.isUsed]
  · intro hchain
    obtain ⟨next, rest, rfl, hslot, hrest⟩ := hchain.of_some
    obtain ⟨hlt, hget⟩ := List.getElem?_eq_some_iff.mp hslot
    obtain ⟨hnotin, hnodup⟩ := List.nodup_cons.mp h.nodup
    have hset := getElem?_set_index hlt (.used (valueFn i))
    have hnone : t.get i = none := by rw [get, hslot]
    simp only [hslot]
    refine ⟨_, _, rfl, (h.get_eq _).symm.trans hnone, by simp, ?_⟩
    refine represents_of_data (s := .used (valueFn i)) h hset ?_ hnodup ?_ ?_
    · refine hrest.congr fun j hj => ?_
      rw [hset, if_neg]
      rintro rfl
      exact hnotin hj
    · intro j
      split
      · next hj => simp [hj, hnotin, Slot.isUsed]
      · next hj => simp [hj]
    · simp [h.requests_eq, List.countP_set hlt, hget, Slot.isUsed]

theorem get_of_insertFn {t t' : HandleTable T} (h : t.insertFn valueFn = some (i, t')) :
    t'.get i = some (valueFn i) := by
  unfold insertFn at h
  dsimp only at h
  split at h
  · split at h
    · next hslot =>
      cases h
      have hlt := (List.getElem?_eq_some_iff.mp hslot).1
      rw [get_eq_some, getElem?_set_index hlt, if_pos rfl]
    · cases h
  · cases h
    rw [get_eq_some, getElem?_append_index, if_pos rfl]

theorem requests_insertFn {t t' : HandleTable T} (h : t.insertFn valueFn = some (i, t')) :
    t'.requests = t.requests + 1 := by
  unfold insertFn at h
  dsimp only at h
  split at h
  · split at h <;> cases h
    rfl
  · cases h
    rfl

/-- The table grows only when all its slots are used. -/
theorem length_insertFn (h : Represents t m) (hinsert : t.insertFn valueFn = some (i, t')) :
    t'.data.length = t.data.length ∨
      t'.data.length = t.data.length + 1 ∧ t.data.length = t.requests := by
  have hchain := h.chain
  unfold insertFn at hinsert
  dsimp only at hinsert
  split at hinsert
  · split at hinsert
    · cases hinsert
      exact .inl (List.length_set ..)
    · cases hinsert
  · next hfree =>
    cases hinsert
    rw [hfree] at hchain
    have hfreed : m.freed = [] := by
      cases m
      cases hchain
      rfl
    refine .inr ⟨by simp, ?_⟩
    rw [h.requests_eq, eq_comm, List.countP_eq_length]
    intro s hs
    obtain ⟨k, hk⟩ := List.mem_iff_getElem?.mp hs
    cases s with
    | used v => rfl
    | free next =>
      have hmem : Index.ofOffset k ∈ m.freed := (h.free_iff _).mpr ⟨next, hk⟩
      rw [hfreed] at hmem
      cases hmem

/-! ### remove -/

/-- A removal that finds a value makes the table smaller. -/
theorem requests_remove {t t' : HandleTable T} (h : t.remove i = some (some v, t')) :
    t.requests = t'.requests + 1 ∧ t'.data.length = t.data.length := by
  unfold remove at h
  split at h
  · cases h
  · cases h
  · split at h
    · cases h
    · cases h
      exact ⟨by dsimp only; omega, List.length_set ..⟩

theorem remove_represents (h : Represents t m) (i : Index) :
    (m.value i = none ∧ t.remove i = some (none, t)) ∨
      ∃ v t', m.value i = some v ∧ t.remove i = some (some v, t') ∧
        Represents t' (m.set i none (i :: m.freed)) := by
  rw [← h.get_eq]
  unfold remove get
  rcases hslot : t.data[i.offset]? with _ | ⟨next⟩ | ⟨v⟩
  · exact .inl ⟨rfl, rfl⟩
  · exact .inl ⟨rfl, rfl⟩
  · obtain ⟨hlt, hget⟩ := List.getElem?_eq_some_iff.mp hslot
    have hset := getElem?_set_index hlt (.free t.freeList)
    have hpos : 0 < t.requests := by
      rw [h.requests_eq, List.countP_pos_iff]
      exact ⟨_, List.mem_of_getElem? hslot, rfl⟩
    have hnotin : i ∉ m.freed := by
      rw [h.free_iff, hslot]
      rintro ⟨next, ⟨⟩⟩
    refine .inr ⟨v, _, rfl, if_neg (Nat.ne_of_gt hpos), ?_⟩
    refine represents_of_data (s := .free t.freeList)
      h hset ?_ (List.nodup_cons.mpr ⟨hnotin, h.nodup⟩)
      ?_ ?_
    · refine .cons ((hset i).trans (if_pos rfl)) (h.chain.congr fun j hj => ?_)
      rw [hset, if_neg]
      rintro rfl
      exact hnotin hj
    · intro j
      split
      · next hj => simp [hj, Slot.isUsed]
      · next hj => simp [hj]
    · simp [h.requests_eq, List.countP_set hlt, hget, Slot.isUsed]

/-! ### enumeration -/

theorem mem_iter {t : HandleTable T} : (i, v) ∈ t.iter ↔ t.get i = some v := by
  rw [get_eq_some, iter, List.mem_filterMap]
  constructor
  · rintro ⟨⟨s, k⟩, hmem, hpair⟩
    cases s with
    | free next => cases hpair
    | used value =>
      cases hpair
      exact List.mem_zipIdx_iff_getElem?.mp hmem
  · intro hslot
    exact ⟨(.used v, i.offset), List.mem_zipIdx_iff_getElem?.mpr hslot, by simp [pair]⟩

theorem sorted_iter (t : HandleTable T) : t.iter.Pairwise fun p q => p.1.get < q.1.get := by
  have hpositions : t.data.zipIdx.Pairwise fun p q => p.2 < q.2 := by
    rw [← List.pairwise_map, List.zipIdx_map_snd]
    exact List.pairwise_lt_range' 1
  refine List.pairwise_filterMap.mpr (hpositions.imp ?_)
  rintro ⟨s, k⟩ ⟨s', k'⟩ hlt p hp p' hp'
  cases s <;> cases hp
  cases s' <;> cases hp'
  exact Nat.succ_lt_succ hlt

theorem enumerates_iter (h : Represents t m) : Enumerates m t.iter where
  mem_iff i v := by rw [mem_iter, h.get_eq]
  sorted := t.sorted_iter

theorem length_iter {m : Map T} (h : Represents t m) : t.iter.length = t.requests := by
  have hused : ∀ p : Slot T × Nat, (pair p).isSome = p.1.isUsed := by
    rintro ⟨s, k⟩
    cases s <;> rfl
  have hcount : t.data.zipIdx.countP (fun p => p.1.isUsed) = t.data.countP Slot.isUsed := by
    have hmap := List.countP_map (p := Slot.isUsed) (f := Prod.fst) (l := t.data.zipIdx)
    rw [List.zipIdx_map_fst] at hmap
    exact hmap.symm
  rw [iter, List.length_filterMap_eq_countP, h.requests_eq]
  simp only [hused]
  exact hcount

theorem indexes_eq (t : HandleTable T) : t.indexes = t.iter.map Prod.fst := by
  rw [iter, List.map_filterMap, indexes]
  congr 1
  funext ⟨s, k⟩
  cases s <;> rfl

/-! ## every sequence of operations -/

theorem call_represents {m : Map T} (h : Represents t m) (op : Op T) :
    ∃ out t' m', t.call op = some (out, t') ∧ MapStep m op out m' ∧ Represents t' m' := by
  have hiter := enumerates_iter h
  cases op with
  | insert v =>
    obtain ⟨i, t', hinsert, hvalue, hfreed, ht'⟩ := insertFn_represents h fun _ => v
    exact ⟨_, _, _, by rw [call, insert, hinsert]; rfl, .insert hvalue hfreed, ht'⟩
  | insertFn valueFn =>
    obtain ⟨i, t', hinsert, hvalue, hfreed, ht'⟩ := insertFn_represents h valueFn
    exact ⟨_, _, _, by rw [call, hinsert]; rfl, .insertFn hvalue hfreed, ht'⟩
  | get i => exact ⟨_, _, _, rfl, h.get_eq i ▸ .get, h⟩
  | remove i =>
    obtain ⟨hvalue, hremove⟩ | ⟨v, t', hvalue, hremove, ht'⟩ := remove_represents h i
    · exact ⟨_, _, _, by rw [call, hremove]; rfl, .removeNone hvalue, h⟩
    · exact ⟨_, _, _, by rw [call, hremove]; rfl, .removeSome hvalue, ht'⟩
  | clear => exact ⟨_, _, _, rfl, .clear, represents_new⟩
  | drain => exact ⟨_, _, _, rfl, .drain hiter, represents_new⟩
  | len =>
    refine ⟨_, _, _, rfl, ?_, h⟩
    have hlen : t.len = t.iter.length := (length_iter h).symm
    exact hlen ▸ .len hiter
  | isEmpty =>
    refine ⟨_, _, _, rfl, ?_, h⟩
    have hempty : t.isEmpty = t.iter.isEmpty := by
      rw [isEmpty, ← length_iter h]
      cases t.iter <;> simp
    exact hempty ▸ .isEmpty hiter
  | iter => exact ⟨_, _, _, rfl, .iter hiter, h⟩
  | indexes => exact ⟨_, _, _, rfl, t.indexes_eq ▸ .indexes hiter, h⟩

theorem run_represents {m : Map T} (h : Represents t m) (ops : List (Op T)) :
    ∃ outs t' m', t.run ops = some (outs, t') ∧ MapRuns m ops outs m' ∧ Represents t' m' := by
  induction ops generalizing t m with
  | nil => exact ⟨[], t, m, rfl, .nil, h⟩
  | cons op ops ih =>
    obtain ⟨out, t₁, m₁, hcall, hstep, h₁⟩ := call_represents h op
    obtain ⟨outs, t₂, m₂, hrun, hruns, h₂⟩ := ih h₁
    exact ⟨_, _, _, by simp [run, hcall, hrun], .cons hstep hruns, h₂⟩

/-- **The table is a finite map.** Every sequence of operations runs without a
panic, and returns what the map returns; then the table stands for the map. -/
theorem run_new (ops : List (Op T)) :
    ∃ outs t m, (new : HandleTable T).run ops = some (outs, t) ∧ MapRuns .empty ops outs m ∧
      Represents t m :=
  run_represents represents_new ops

end HandleTable

end Kimojio.Runtime
