import Kimojio.Resolver.ReplyMeaning

/-!
# Kimojio.Resolver.ReplyRewrite

Replies that are written in another way.

`Alike` relates two trees that differ in the order of the members of their
objects, in how the member names are escaped, and, in the three objects that
the schema declares, in members that the schema does not know. The level of a
value says which of these objects it is.

A reply with distinct member names and a reply that is written in another way
have the same answer (`Alike.answer_eq`), so that they decode alike
(`decodeVarlinkReply_alike`), as long as both are within the limit of a frame.
-/

namespace Kimojio.Resolver

open Json Rfc8259
open Reading (SetOnce)

/-! ## the relation -/

/-- Where a value stands in a reply. -/
inductive Level where
  | reply
  | parameters
  | addresses
  | entry
  /-- Nothing that the schema looks into for its members. -/
  | other
  deriving DecidableEq

namespace Level

open Classical in
/-- The level of the value of a member. -/
noncomputable def member (l : Level) (name : Str) : Level :=
  if l = .reply ∧ Named name "parameters" then .parameters
  else if l = .parameters ∧ Named name "addresses" then .addresses
  else .other

/-- The level of an element. -/
def element : Level → Level
  | .addresses => .entry
  | _ => .other

/-- How many containers a value of the level stands in. -/
def outer : Level → Nat
  | .reply => 0
  | .parameters => 1
  | .addresses => 2
  | .entry => 3
  | .other => 0

/-- The names that the schema declares, where it declares an object. -/
def names : Level → Option (List String)
  | .reply => some ["error", "parameters"]
  | .parameters => some ["addresses", "name", "flags"]
  | .entry => some ["ifindex", "family", "address"]
  | .addresses => none
  | .other => none

end Level

/-- The same name, with other escapes. -/
def SameName (name name' : Str) : Prop := name = name' ∨ ∃ cs, Decodes name cs ∧ Decodes name' cs

/-- A member that the schema does not know, whose value nests within the
limit. -/
structure Unknown (l : Level) (m : List Char × Value) : Prop where
  not_named : ∃ names, l.names = some names ∧ ∀ c ∈ names, ¬ Named m.1 c
  depth_le : l.outer + 1 + m.2.depth ≤ maxDepth

/-- The same value, written in another way: other escapes in the names and
another order of the members at any depth, and unknown members where the
schema declares an object. -/
inductive Alike : Level → Value → Value → Prop where
  | same : Alike l v v
  | array (pairs : List (Value × Value)) : (∀ p ∈ pairs, Alike l.element p.1 p.2) →
      Alike l (.array (pairs.map (·.1))) (.array (pairs.map (·.2)))
  | object (pairs : List ((List Char × Value) × (List Char × Value)))
      (extra : List (List Char × Value)) :
      (∀ p ∈ pairs, SameName p.1.1 p.2.1) →
      (∀ p ∈ pairs, Alike (l.member p.1.1) p.1.2 p.2.2) → (∀ m ∈ extra, Unknown l m) →
      ms'.Perm (pairs.map (·.2) ++ extra) →
      Alike l (.object (pairs.map (·.1))) (.object ms')

/-- The members of two objects that are written in another way. -/
structure Rearranged (l : Level) (ms ms' : List (List Char × Value)) : Prop where
  exists_pairs : ∃ (pairs : List ((List Char × Value) × (List Char × Value)))
    (extra : List (List Char × Value)), ms = pairs.map (·.1) ∧
      (∀ p ∈ pairs, SameName p.1.1 p.2.1 ∧ Alike (l.member p.1.1) p.1.2 p.2.2) ∧
      (∀ m ∈ extra, Unknown l m) ∧ ms'.Perm (pairs.map (·.2) ++ extra)

/-! ## names -/

theorem SameName.named_iff (h : SameName name name') (c : String) :
    Named name c ↔ Named name' c := by
  obtain rfl | ⟨cs, hcs, hcs'⟩ := h
  · exact Iff.rfl
  · constructor
    · intro hn
      rw [Named, decodes_unique hn hcs]
      exact hcs'
    · intro hn
      rw [Named, decodes_unique hn hcs']
      exact hcs

theorem Unknown.not_named_of_mem (h : Unknown l m) (hl : l.names = some names) (hc : c ∈ names) :
    ¬ Named m.1 c := by
  obtain ⟨names', hnames, hnot⟩ := h.not_named
  rw [hl] at hnames
  cases hnames
  exact hnot c hc

/-! ## what stands behind a value -/

theorem exists_diagonal (xs : List α) :
    ∃ pairs : List (α × α), xs = pairs.map (·.1) ∧ xs = pairs.map (·.2) ∧
      ∀ p ∈ pairs, p.1 = p.2 := by
  refine ⟨xs.map fun x => (x, x), ?_, ?_, fun p hp => ?_⟩
  · rw [List.map_map]
    exact (List.map_id xs).symm
  · rw [List.map_map]
    exact (List.map_id xs).symm
  · obtain ⟨x, -, rfl⟩ := List.mem_map.mp hp
    rfl

theorem Rearranged.refl (l : Level) (ms : List (List Char × Value)) : Rearranged l ms ms := by
  obtain ⟨pairs, hfst, hsnd, hpairs⟩ := exists_diagonal ms
  refine ⟨pairs, [], hfst, fun p hp => ?_, nofun, ?_⟩
  · rw [hpairs p hp]
    exact ⟨.inl rfl, .same⟩
  · rw [List.append_nil, ← hsnd]

theorem Alike.of_object (h : Alike l (.object ms) v') :
    ∃ ms', v' = .object ms' ∧ Rearranged l ms ms' := by
  cases h with
  | same => exact ⟨ms, rfl, .refl l ms⟩
  | object pairs extra hname hvalue hextra hperm =>
    exact ⟨_, rfl, pairs, extra, rfl, fun p hp => ⟨hname p hp, hvalue p hp⟩, hextra, hperm⟩

theorem Alike.of_array (h : Alike l (.array vs) v') :
    ∃ pairs : List (Value × Value), vs = pairs.map (·.1) ∧ v' = .array (pairs.map (·.2)) ∧
      ∀ p ∈ pairs, Alike l.element p.1 p.2 := by
  cases h with
  | same =>
    obtain ⟨pairs, hfst, hsnd, hpairs⟩ := exists_diagonal vs
    refine ⟨pairs, hfst, congrArg _ hsnd, fun p hp => ?_⟩
    rw [hpairs p hp]
    exact .same
  | array pairs h => exact ⟨pairs, rfl, rfl, h⟩

theorem Alike.number_iff (h : Alike l v v') (text : Str) :
    v = .number text ↔ v' = .number text := by
  cases h with
  | same => exact Iff.rfl
  | array | object => exact ⟨nofun, nofun⟩

theorem Alike.string_iff (h : Alike l v v') (body : Str) :
    v = .string body ↔ v' = .string body := by
  cases h with
  | same => exact Iff.rfl
  | array | object => exact ⟨nofun, nofun⟩

namespace Rearranged

theorem forward (h : Rearranged l ms ms') (hm : m ∈ ms) :
    ∃ m' ∈ ms', SameName m.1 m'.1 ∧ Alike (l.member m.1) m.2 m'.2 := by
  obtain ⟨pairs, extra, rfl, hpairs, -, hperm⟩ := h.exists_pairs
  obtain ⟨p, hp, rfl⟩ := List.mem_map.mp hm
  refine ⟨p.2, hperm.mem_iff.mpr (List.mem_append_left _ (List.mem_map_of_mem hp)), ?_⟩
  exact hpairs p hp

theorem backward (h : Rearranged l ms ms') (hm : m' ∈ ms') :
    (∃ m ∈ ms, SameName m.1 m'.1 ∧ Alike (l.member m.1) m.2 m'.2) ∨ Unknown l m' := by
  obtain ⟨pairs, extra, rfl, hpairs, hextra, hperm⟩ := h.exists_pairs
  rcases List.mem_append.mp (hperm.mem_iff.mp hm) with hmem | hmem
  · obtain ⟨p, hp, rfl⟩ := List.mem_map.mp hmem
    exact .inl ⟨p.1, List.mem_map_of_mem hp, hpairs p hp⟩
  · exact .inr (hextra m' hmem)

section
variable (h : Rearranged l ms ms') {P : List Char × Value → Prop}
  (hpair : ∀ m m', SameName m.1 m'.1 → Alike (l.member m.1) m.2 m'.2 → (P m ↔ P m'))
include h hpair

theorem forall_iff (hunknown : ∀ m, Unknown l m → P m) : (∀ m ∈ ms, P m) ↔ ∀ m' ∈ ms', P m' := by
  constructor
  · intro hall m' hm'
    obtain ⟨m, hm, hname, hvalue⟩ | hm' := h.backward hm'
    · exact (hpair m m' hname hvalue).mp (hall m hm)
    · exact hunknown m' hm'
  · intro hall m hm
    obtain ⟨m', hm', hname, hvalue⟩ := h.forward hm
    exact (hpair m m' hname hvalue).mpr (hall m' hm')

theorem exists_iff (hunknown : ∀ m, Unknown l m → ¬ P m) : (∃ m ∈ ms, P m) ↔ ∃ m' ∈ ms', P m' := by
  constructor
  · rintro ⟨m, hm, hP⟩
    obtain ⟨m', hm', hname, hvalue⟩ := h.forward hm
    exact ⟨m', hm', (hpair m m' hname hvalue).mp hP⟩
  · rintro ⟨m', hm', hP⟩
    obtain ⟨m, hm, hname, hvalue⟩ | hu := h.backward hm'
    · exact ⟨m, hm, (hpair m m' hname hvalue).mpr hP⟩
    · exact absurd hP (hunknown m' hu)

end

theorem exists_named_iff (h : Rearranged l ms ms')
    (hl : l.names = some names) (hc : c ∈ names) :
    (∃ m ∈ ms, Named m.1 c) ↔ ∃ m' ∈ ms', Named m'.1 c :=
  h.exists_iff (fun _ _ hname _ => hname.named_iff c) fun _ hu => hu.not_named_of_mem hl hc

end Rearranged

/-! ## the schema does not see the difference -/

theorem Alike.isInt_iff (h : Alike l v v') : IsInt low high v ↔ IsInt low high v' := by
  unfold IsInt
  simp only [h.number_iff]

variable {m m' : List Char × Value}

/-- An array whose length and elements are described. -/
theorem Alike.array_iff (h : Alike l v v') {Q : Nat → Prop} {P : Value → Prop}
    (hP : ∀ e e', Alike l.element e e' → (P e ↔ P e')) :
    (∃ vs, v = .array vs ∧ Q vs.length ∧ ∀ e ∈ vs, P e) ↔
      ∃ vs', v' = .array vs' ∧ Q vs'.length ∧ ∀ e ∈ vs', P e := by
  have hboth : ∀ pairs : List (Value × Value), (∀ p ∈ pairs, Alike l.element p.1 p.2) →
      ((Q (pairs.map (·.1)).length ∧ ∀ e ∈ pairs.map (·.1), P e) ↔
        Q (pairs.map (·.2)).length ∧ ∀ e ∈ pairs.map (·.2), P e) := by
    intro pairs hpairs
    simp only [List.length_map, List.mem_map, forall_exists_index, and_imp,
      forall_apply_eq_imp_iff₂]
    refine and_congr_right fun _ => forall_congr' fun p => forall_congr' fun hp => ?_
    exact hP p.1 p.2 (hpairs p hp)
  constructor
  · rintro ⟨vs, rfl, hvs⟩
    obtain ⟨pairs, rfl, rfl, hpairs⟩ := h.of_array
    exact ⟨_, rfl, (hboth pairs hpairs).mp hvs⟩
  · rintro ⟨vs', rfl, hvs⟩
    cases h with
    | same => exact ⟨vs', rfl, hvs⟩
    | array pairs hpairs => exact ⟨_, rfl, (hboth pairs hpairs).mpr hvs⟩

/-- An object whose members are described. -/
theorem Alike.object_iff (h : Alike l v v') {P : List (List Char × Value) → Prop}
    (hP : ∀ ms ms', Rearranged l ms ms' → (P ms ↔ P ms')) :
    (∃ ms, v = .object ms ∧ P ms) ↔ ∃ ms', v' = .object ms' ∧ P ms' := by
  constructor
  · rintro ⟨ms, rfl, hms⟩
    obtain ⟨ms', rfl, hre⟩ := h.of_object
    exact ⟨ms', rfl, (hP ms ms' hre).mp hms⟩
  · rintro ⟨ms', rfl, hms⟩
    cases h with
    | same => exact ⟨ms', rfl, hms⟩
    | object pairs extra hname hvalue hextra hperm =>
      refine ⟨_, rfl, (hP _ ms' ⟨pairs, extra, rfl, fun p hp => ?_, hextra, hperm⟩).mpr hms⟩
      exact ⟨hname p hp, hvalue p hp⟩

theorem Alike.isAddress_iff (h : Alike l v v') : IsAddress v ↔ IsAddress v' :=
  h.array_iff (Q := (· ≤ maxAddressBytes)) fun _ _ he => he.isInt_iff

/-- What a member has to be under its name. -/
theorem named_imp_iff (hname : SameName m.1 m'.1) {P : Value → Prop}
    (hP : Named m.1 c → (P m.2 ↔ P m'.2)) : (Named m.1 c → P m.2) ↔ (Named m'.1 c → P m'.2) := by
  rw [← hname.named_iff]
  exact forall_congr' hP

/-- A member of an entry that the schema does not know. -/
theorem Unknown.entryMember (h : Unknown .entry m) : EntryMember m where
  ifindex hn := absurd hn (h.not_named_of_mem rfl (by simp))
  family hn := absurd hn (h.not_named_of_mem rfl (by simp))
  address hn := absurd hn (h.not_named_of_mem rfl (by simp))

theorem SameName.entryMember_iff (hname : SameName m.1 m'.1) (hvalue : Alike l m.2 m'.2) :
    EntryMember m ↔ EntryMember m' := by
  have hnumber := fun c => named_imp_iff hname (c := c) (P := IsInt (-2 ^ 31) (2 ^ 31 - 1))
    fun _ => hvalue.isInt_iff
  have haddress := named_imp_iff hname (c := "address") fun _ => hvalue.isAddress_iff
  rw [Resolver.entryMember_iff, Resolver.entryMember_iff, hnumber, hnumber, haddress]

theorem Alike.isEntry_iff (h : Alike .entry v v') : IsEntry v ↔ IsEntry v' := by
  refine h.object_iff fun ms ms' hre => ?_
  rw [hre.forall_iff (fun _ _ => SameName.entryMember_iff) fun _ => Unknown.entryMember,
    hre.exists_named_iff rfl (by simp), hre.exists_named_iff rfl (by simp)]

theorem Alike.isAddresses_iff (h : Alike .addresses v v') : IsAddresses v ↔ IsAddresses v' := by
  have hiff := h.array_iff (Q := fun _ => True) fun _ _ he => Alike.isEntry_iff he
  simp only [true_and] at hiff
  exact hiff

/-- The value of `parameters.addresses` is looked into. -/
theorem Level.member_addresses (h : Named name "addresses") :
    Level.parameters.member name = .addresses := by
  rw [Level.member, if_neg (by simp), if_pos ⟨rfl, h⟩]

theorem Level.member_parameters (h : Named name "parameters") :
    Level.reply.member name = .parameters := by
  rw [Level.member, if_pos ⟨rfl, h⟩]

theorem Unknown.parametersMember (h : Unknown .parameters m) : ParametersMember m where
  addresses hn := absurd hn (h.not_named_of_mem rfl (by simp))
  name hn := absurd hn (h.not_named_of_mem rfl (by simp))
  flags hn := absurd hn (h.not_named_of_mem rfl (by simp))

theorem SameName.parametersMember_iff (hname : SameName m.1 m'.1)
    (hvalue : Alike (Level.parameters.member m.1) m.2 m'.2) :
    ParametersMember m ↔ ParametersMember m' := by
  have haddresses := named_imp_iff hname (P := IsAddresses) fun hn => by
    rw [Level.member_addresses hn] at hvalue
    exact hvalue.isAddresses_iff
  have hstring := named_imp_iff hname (c := "name") (P := fun v => ∃ body, v = .string body)
    fun _ => exists_congr hvalue.string_iff
  have hflags := named_imp_iff hname (c := "flags") (P := IsInt 0 (2 ^ 64 - 1))
    fun _ => hvalue.isInt_iff
  rw [Resolver.parametersMember_iff, Resolver.parametersMember_iff, haddresses, hstring, hflags]

theorem Alike.isParameters_iff (h : Alike .parameters v v') : IsParameters v ↔ IsParameters v' :=
  h.object_iff fun _ _ hre =>
    hre.forall_iff (fun _ _ => SameName.parametersMember_iff) fun _ => Unknown.parametersMember

theorem Unknown.replyMember (h : Unknown .reply m) : ReplyMember m where
  error hn := absurd hn (h.not_named_of_mem rfl (by simp))
  parameters hn := absurd hn (h.not_named_of_mem rfl (by simp))

theorem SameName.replyMember_iff (hname : SameName m.1 m'.1)
    (hvalue : Alike (Level.reply.member m.1) m.2 m'.2) : ReplyMember m ↔ ReplyMember m' := by
  have herror := named_imp_iff hname (c := "error")
    (P := fun v => ∃ body, v = .string body ∧ '\\' ∉ body)
    fun _ => exists_congr fun body => and_congr_left fun _ => hvalue.string_iff body
  have hparameters := named_imp_iff hname (P := IsParameters) fun hn => by
    rw [Level.member_parameters hn] at hvalue
    exact hvalue.isParameters_iff
  rw [Resolver.replyMember_iff, Resolver.replyMember_iff, herror, hparameters]

theorem Alike.conforms_iff (h : Alike .reply v v') : Conforms v ↔ Conforms v' :=
  h.object_iff fun _ _ hre =>
    hre.forall_iff (fun _ _ => SameName.replyMember_iff) fun _ => Unknown.replyMember

theorem isAnswer_iff (hname : SameName m.1 m'.1)
    (hvalue : Alike (Level.reply.member m.1) m.2 m'.2) : IsAnswer m ↔ IsAnswer m' := by
  refine or_congr (hname.named_iff _) ?_
  rw [hname.named_iff]
  refine and_congr_right fun hn => ?_
  rw [Level.member_parameters ((hname.named_iff _).mpr hn)] at hvalue
  exact hvalue.object_iff fun _ _ hre => hre.exists_named_iff rfl (by simp)

theorem Alike.answers_iff (h : Alike .reply v v') : Answers v ↔ Answers v' := by
  refine h.object_iff fun _ _ hre => hre.exists_iff (fun _ _ => isAnswer_iff) fun m hu => ?_
  rintro (hn | ⟨hn, -⟩)
  · exact hu.not_named_of_mem rfl (by simp) hn
  · exact hu.not_named_of_mem rfl (by simp) hn

/-! ## nesting -/

namespace Level

/-- The level is that of values inside `n` containers. -/
def Inside (l : Level) (n : Nat) : Prop := l = .other ∨ n = l.outer

theorem Inside.member {l : Level} (h : l.Inside n) (name : Str) :
    (l.member name).Inside (n + 1) := by
  unfold Level.member
  split
  · next hreply =>
    obtain rfl | rfl := h
    · exact absurd hreply.1 (by decide)
    · rw [hreply.1]
      exact .inr rfl
  split
  · next hparameters =>
    obtain rfl | rfl := h
    · exact absurd hparameters.1 (by decide)
    · rw [hparameters.1]
      exact .inr rfl
  · exact .inl rfl

theorem Inside.element {l : Level} (h : l.Inside n) : l.element.Inside (n + 1) := by
  cases l with
  | addresses =>
    obtain h | rfl := h
    · cases h
    · exact .inr rfl
  | reply | parameters | entry | other => exact .inl rfl

end Level

theorem Unknown.depth_le_inside (h : Unknown l m) (hn : l.Inside n) :
    n + 1 + m.2.depth ≤ maxDepth := by
  obtain rfl | rfl := hn
  · obtain ⟨names, hnames, -⟩ := h.not_named
    cases hnames
  · exact h.depth_le

/-- Both nest within the limit, or both nest too deep. -/
theorem Alike.depth_iff (h : Alike l v v') (hn : l.Inside n) :
    n + v.depth ≤ maxDepth ↔ n + v'.depth ≤ maxDepth := by
  induction h generalizing n with
  | same => exact Iff.rfl
  | array pairs _ ih =>
    rw [depth_array_le, depth_array_le]
    simp only [List.mem_map, forall_exists_index, and_imp, forall_apply_eq_imp_iff₂]
    refine and_congr_right fun _ => forall_congr' fun p => forall_congr' fun hp => ?_
    exact ih p hp hn.element
  | object pairs extra _ _ hextra hperm ih =>
    rw [depth_object_le, depth_object_le]
    refine and_congr_right fun _ => ⟨fun hall m' hm' => ?_, fun hall m hm => ?_⟩
    · rcases List.mem_append.mp (hperm.mem_iff.mp hm') with hmem | hmem
      · obtain ⟨p, hp, rfl⟩ := List.mem_map.mp hmem
        exact (ih p hp (hn.member _)).mp (hall p.1 (List.mem_map_of_mem hp))
      · exact (hextra m' hmem).depth_le_inside hn
    · obtain ⟨p, hp, rfl⟩ := List.mem_map.mp hm
      refine (ih p hp (hn.member _)).mpr (hall p.2 (hperm.mem_iff.mpr ?_))
      exact List.mem_append_left _ (List.mem_map_of_mem hp)

/-! ## distinct names -/

/-- No two members have the same name. -/
def DistinctNames (ms : List (List Char × Value)) : Prop :=
  ms.Pairwise fun m m' => ∀ cs, ¬ (Decodes m.1 cs ∧ Decodes m'.1 cs)

/-- Member names are distinct where the schema declares an object. -/
def DistinctEntry (v : Value) : Prop := ∀ ms, v = .object ms → DistinctNames ms

def DistinctAddresses (v : Value) : Prop := ∀ vs, v = .array vs → ∀ e ∈ vs, DistinctEntry e

def DistinctParameters (v : Value) : Prop :=
  ∀ ms, v = .object ms → DistinctNames ms ∧ ∀ m ∈ ms, Named m.1 "addresses" → DistinctAddresses m.2

def DistinctReply (v : Value) : Prop :=
  ∀ ms, v = .object ms →
    DistinctNames ms ∧ ∀ m ∈ ms, Named m.1 "parameters" → DistinctParameters m.2

/-- A name occurs once. -/
def NamedOnce (c : String) (ms : List (List Char × Value)) : Prop :=
  ms.Pairwise fun m m' => ¬ (Named m.1 c ∧ Named m'.1 c)

theorem DistinctNames.namedOnce (h : DistinctNames ms) (c : String) : NamedOnce c ms :=
  h.imp fun hne => hne c.toList

/-- A name of the schema occurs once in the other way of writing too. -/
theorem Rearranged.namedOnce (h : Rearranged l ms ms') (hl : l.names = some names)
    (hc : c ∈ names) (hone : NamedOnce c ms) : NamedOnce c ms' := by
  obtain ⟨pairs, extra, rfl, hpairs, hextra, hperm⟩ := h.exists_pairs
  have hsymm : ∀ {m m' : List Char × Value}, ¬ (Named m.1 c ∧ Named m'.1 c) →
      ¬ (Named m'.1 c ∧ Named m.1 c) := fun hn hn' => hn hn'.symm
  refine (hperm.pairwise_iff hsymm).mpr (List.pairwise_append.mpr ⟨?_, ?_, ?_⟩)
  · rw [NamedOnce, List.pairwise_map] at hone
    rw [List.pairwise_map]
    refine hone.imp_of_mem fun {p q} hp hq hn => ?_
    rw [← (hpairs p hp).1.named_iff, ← (hpairs q hq).1.named_iff]
    exact hn
  · refine List.Pairwise.imp_of_mem (R := fun _ _ => True) (fun hm _ _ hn => ?_)
      (List.pairwise_of_forall fun _ _ => trivial)
    exact (hextra _ hm).not_named_of_mem hl hc hn.1
  · intro m _ m' hm' hn
    exact (hextra m' hm').not_named_of_mem hl hc hn.2

/-- What one name sets is the same in both. -/
theorem Rearranged.setOnce_eq (h : Rearranged l ms ms') (hl : l.names = some names) (hc : c ∈ names)
    (hvalue : ∀ m ∈ ms, ∀ m' ∈ ms', SameName m.1 m'.1 → Alike (l.member m.1) m.2 m'.2 →
      Named m.1 c → value m = value m')
    (hset : SetOnce (fun m => Named m.1 c) value ms before after)
    (hset' : SetOnce (fun m => Named m.1 c) value ms' before after') : after = after' := by
  by_cases hsome : ∃ m ∈ ms, Named m.1 c
  · obtain ⟨m, hm, hn⟩ := hsome
    obtain ⟨m', hm', hname, halike⟩ := h.forward hm
    rw [hset.1 m hm hn, hset'.1 m' hm' ((hname.named_iff c).mp hn)]
    exact hvalue m hm m' hm' hname halike hn
  · have hnone' : ¬ ∃ m' ∈ ms', Named m'.1 c := mt (h.exists_named_iff hl hc).mpr hsome
    rw [hset.2 fun m hm hn => hsome ⟨m, hm, hn⟩, hset'.2 fun m hm hn => hnone' ⟨m, hm, hn⟩]

/-! ## the addresses -/

theorem Alike.asNumber_eq (h : Alike l v v') (convert : Str → Except ReplyErrorKind α)
    (depth : Nat) : (asNumber convert depth v).toOption = (asNumber convert depth v').toOption := by
  cases h <;> rfl

theorem Alike.readOctet_eq (h : Alike l v v') (octets : List UInt8) :
    (readOctet octets v).result = (readOctet octets v').result := by
  cases h <;> rfl

theorem octets_eq {pairs : List (Value × Value)} (h : ∀ p ∈ pairs, Alike l p.1 p.2)
    (octets : List UInt8) :
    ((pairs.map (·.1)).foldlM readOctet octets).result =
      ((pairs.map (·.2)).foldlM readOctet octets).result := by
  induction pairs generalizing octets with
  | nil => rfl
  | cons p pairs ih =>
    rw [List.map_cons, List.map_cons, List.foldlM_cons, List.foldlM_cons, Reading.result_bind,
      Reading.result_bind, (h p (.head _)).readOctet_eq]
    exact Option.bind_congr fun octets' _ => ih (fun q hq => h q (.tail _ hq)) octets'

theorem Alike.readAddress_eq (h : Alike l v v') :
    (readAddress v).result = (readAddress v').result := by
  cases h with
  | same | object => rfl
  | array pairs hpairs =>
    rw [readAddress, readAddress, result_container, result_container, octets_eq hpairs]

theorem entryOf_setOnce (hv : Valid (.object ms)) (h : entryOf ms = some entry) :
    (NamedOnce "ifindex" ms → SetOnce (fun m => Named m.1 "ifindex")
        (fun m => (asNumber integerI32 4 m.2).toOption) ms none entry.ifindex) ∧
      (NamedOnce "family" ms → SetOnce (fun m => Named m.1 "family")
        (fun m => (asNumber integerI32 4 m.2).toOption) ms none entry.family) ∧
      (NamedOnce "address" ms → SetOnce (fun m => Named m.1 "address")
        (fun m => (readAddress m.2).result) ms none entry.address) := by
  have hsets : ∀ m ∈ ms, ∀ e e' : Entry, (readEntryMember e m).result = some e' → _ :=
    fun m hm _ _ => readEntryMember_sets (hv.member hm).1
  refine ⟨fun hone => ?_, fun hone => ?_, fun hone => ?_⟩
  · exact Reading.foldlM_setOnce Entry.ifindex
      (fun m hm hn e e' h => ((hsets m hm e e' h).1.1 hn).2)
      (fun m hm hn e e' h => (hsets m hm e e' h).1.2 hn) hone h
  · exact Reading.foldlM_setOnce Entry.family
      (fun m hm hn e e' h => ((hsets m hm e e' h).2.1.1 hn).2)
      (fun m hm hn e e' h => (hsets m hm e e' h).2.1.2 hn) hone h
  · exact Reading.foldlM_setOnce Entry.address
      (fun m hm hn e e' h => ((hsets m hm e e' h).2.2.1 hn).2)
      (fun m hm hn e e' h => (hsets m hm e e' h).2.2.2 hn) hone h

/-- Two entries that are read to their end declare the same. -/
theorem Rearranged.entryOf_eq (h : Rearranged .entry ms ms') (hv : Valid (.object ms))
    (hv' : Valid (.object ms')) (hdistinct : DistinctNames ms) (hentry : entryOf ms = some entry)
    (hentry' : entryOf ms' = some entry') : entry = entry' := by
  obtain ⟨hifindex, hfamily, haddress⟩ := entryOf_setOnce hv hentry
  obtain ⟨hifindex', hfamily', haddress'⟩ := entryOf_setOnce hv' hentry'
  have hone := fun c => hdistinct.namedOnce c
  have hone' := fun c hc => h.namedOnce (c := c) rfl hc (hone c)
  have hi := h.setOnce_eq rfl (by simp) (fun _ _ _ _ _ halike _ => halike.asNumber_eq _ _)
    (hifindex (hone _)) (hifindex' (hone' _ (by simp)))
  have hf := h.setOnce_eq rfl (by simp) (fun _ _ _ _ _ halike _ => halike.asNumber_eq _ _)
    (hfamily (hone _)) (hfamily' (hone' _ (by simp)))
  have ha := h.setOnce_eq rfl (by simp) (fun _ _ _ _ _ halike _ => halike.readAddress_eq)
    (haddress (hone _)) (haddress' (hone' _ (by simp)))
  obtain ⟨ifindex, family, address⟩ := entry
  cases hi
  cases hf
  cases ha
  rfl

/-- An entry that is read to its end declares something. -/
theorem exists_entryOf (h : (readEntry (.object ms)).result.isSome) :
    ∃ entry, entryOf ms = some entry ∧ entry.family.isSome ∧ entry.address.isSome := by
  rw [readEntry, result_accept_bind, Reading.result_bind] at h
  cases hentry : entryOf ms with
  | none =>
    rw [entryOf] at hentry
    rw [hentry] at h
    cases h
  | some entry =>
    have hfold := hentry
    rw [entryOf] at hfold
    rw [hfold] at h
    exact ⟨entry, rfl, (isSome_endEntry entry).mp h⟩

theorem Alike.entryAddresses_eq (h : Alike .entry v v') (hv : Valid v) (hv' : Valid v')
    (hdistinct : DistinctEntry v) (hok : IsEntry v ∧ 3 + v.depth ≤ maxDepth) :
    entryAddresses v = entryAddresses v' := by
  have hok' : IsEntry v' ∧ 3 + v'.depth ≤ maxDepth :=
    ⟨h.isEntry_iff.mp hok.1, (h.depth_iff (.inr rfl)).mp hok.2⟩
  have hread := (isSome_readEntry hv).mpr hok
  have hread' := (isSome_readEntry hv').mpr hok'
  obtain ⟨ms, rfl, -⟩ := hok.1
  obtain ⟨ms', rfl, hre⟩ := h.of_object
  obtain ⟨entry, hentry, -⟩ := exists_entryOf hread
  obtain ⟨entry', hentry', -⟩ := exists_entryOf hread'
  rw [entryAddresses, entryAddresses, hentry, hentry',
    hre.entryOf_eq hv hv' (hdistinct ms rfl) hentry hentry']

theorem Alike.listAddresses_eq (h : Alike .addresses v v') (hv : Valid v) (hv' : Valid v')
    (hdistinct : DistinctAddresses v) (hok : IsAddresses v ∧ 2 + v.depth ≤ maxDepth) :
    listAddresses v = listAddresses v' := by
  obtain ⟨⟨vs, rfl, hentries⟩, hdepth⟩ := hok
  obtain ⟨pairs, rfl, rfl, hpairs⟩ := h.of_array
  rw [depth_array_le] at hdepth
  rw [listAddresses, listAddresses, List.flatMap_map, List.flatMap_map, List.flatMap_def,
    List.flatMap_def]
  refine congrArg List.flatten (List.map_congr_left fun p hp => ?_)
  have hmem : p.1 ∈ pairs.map (·.1) := List.mem_map_of_mem hp
  exact (hpairs p hp).entryAddresses_eq (hv.element hmem)
    (hv'.element (List.mem_map_of_mem hp)) (hdistinct _ rfl _ hmem)
    ⟨hentries _ hmem, hdepth.2 _ hmem⟩

theorem flatMap_named_setOnce (hv : Valid (.object ms)) (hone : NamedOnce c ms)
    (value : Value → List γ) :
    SetOnce (fun m => Named m.1 c) (fun m => if named m.1 c.toList then value m.2 else []) ms []
      (ms.flatMap fun m => if named m.1 c.toList then value m.2 else []) :=
  Reading.flatMap_setOnce
    (fun _ hm hn => if_neg fun h => hn ((named_iff (hv.member hm).1 c).mp h)) hone

/-- Where one member gives addresses, both ways of writing give the same. -/
theorem Rearranged.flatMap_named_eq (h : Rearranged l ms ms') (hv : Valid (.object ms))
    (hv' : Valid (.object ms')) (hl : l.names = some names) (hc : c ∈ names)
    (hone : NamedOnce c ms) {value : Value → List γ}
    (hvalue : ∀ m ∈ ms, ∀ m' ∈ ms', Alike (l.member m.1) m.2 m'.2 → Named m.1 c →
      value m.2 = value m'.2) :
    (ms.flatMap fun m => if named m.1 c.toList then value m.2 else []) =
      ms'.flatMap fun m => if named m.1 c.toList then value m.2 else [] := by
  refine h.setOnce_eq hl hc (fun m hm m' hm' hname halike hn => ?_)
    (flatMap_named_setOnce hv hone value)
    (flatMap_named_setOnce hv' (h.namedOnce hl hc hone) value)
  have hn' := (hname.named_iff c).mp hn
  rw [if_pos ((named_iff (hv.member hm).1 c).mpr hn),
    if_pos ((named_iff (hv'.member hm').1 c).mpr hn')]
  exact hvalue m hm m' hm' halike hn

theorem Alike.parametersAddresses_eq (h : Alike .parameters v v') (hv : Valid v) (hv' : Valid v')
    (hdistinct : DistinctParameters v) (hok : IsParameters v ∧ 1 + v.depth ≤ maxDepth) :
    parametersAddresses v = parametersAddresses v' := by
  obtain ⟨⟨ms, rfl, hmembers⟩, hdepth⟩ := hok
  obtain ⟨ms', rfl, hre⟩ := h.of_object
  obtain ⟨hnames, haddresses⟩ := hdistinct ms rfl
  rw [depth_object_le] at hdepth
  refine hre.flatMap_named_eq hv hv' rfl (by simp) (hnames.namedOnce _) ?_
  intro m hm m' hm' halike hn
  rw [Level.member_addresses hn] at halike
  exact halike.listAddresses_eq (hv.member hm).2 (hv'.member hm').2 (haddresses m hm hn)
    ⟨(hmembers m hm).addresses hn, hdepth.2 m hm⟩

theorem Alike.replyAddresses_eq (h : Alike .reply v v') (hv : Valid v) (hv' : Valid v')
    (hdistinct : DistinctReply v) (hok : Conforms v ∧ v.depth ≤ maxDepth) :
    replyAddresses v = replyAddresses v' := by
  obtain ⟨⟨ms, rfl, hmembers⟩, hdepth⟩ := hok
  obtain ⟨ms', rfl, hre⟩ := h.of_object
  obtain ⟨hnames, hparameters⟩ := hdistinct ms rfl
  rw [← Nat.zero_add (Value.depth _), depth_object_le] at hdepth
  refine hre.flatMap_named_eq hv hv' rfl (by simp) (hnames.namedOnce _) ?_
  intro m hm m' hm' halike hn
  rw [Level.member_parameters hn] at halike
  exact halike.parametersAddresses_eq (hv.member hm).2 (hv'.member hm').2 (hparameters m hm hn)
    ⟨(hmembers m hm).parameters hn, hdepth.2 m hm⟩

/-! ## the answer -/

/-- A document whose reading gets to its end has text of the grammar in it. -/
theorem valid_of_depth (h : JsonText v text) (hd : v.depth ≤ maxDepth) : Valid v :=
  valid_of_trace (Tokenizer.trace_new h (Nat.le_trans hd (by decide)))

/-- The reply has an `error` member. -/
def HasError (v : Value) : Prop := ∃ ms, v = .object ms ∧ ∃ m ∈ ms, Named m.1 "error"

theorem Alike.hasError_iff (h : Alike .reply v v') : HasError v ↔ HasError v' :=
  h.object_iff fun _ _ hre => hre.exists_named_iff rfl (by simp)

/-- What a reply answers that the decoder accepts. -/
theorem answer_of_accepted (hv : Valid v) (hok : Conforms v ∧ v.depth ≤ maxDepth ∧ Answers v) :
    ∃ failed, answer v = some (failed, replyAddresses v) ∧ (failed = true ↔ HasError v) := by
  obtain ⟨hconforms, hdepth, hanswers⟩ := hok
  obtain ⟨seen, hseen⟩ :=
    Option.isSome_iff_exists.mp ((isSome_readReply hv).mpr ⟨hconforms, hdepth⟩)
  refine ⟨!((readReply v).collect asError).isEmpty, ?_, ?_⟩
  · rw [answer, hseen, ← collect_address hv hseen]
    exact if_pos ((readReply_records hv hseen).mpr hanswers)
  · obtain ⟨ms, rfl, -⟩ := hconforms
    rw [Bool.not_eq_true', isEmpty_collect_error hv hseen]
    simp [HasError]

theorem answer_of_rejected (h : JsonText v text)
    (hnot : ¬ (Conforms v ∧ v.depth ≤ maxDepth ∧ Answers v)) : answer v = none := by
  unfold answer
  split
  · next seen hseen =>
    refine if_neg fun hanswered => hnot ?_
    obtain ⟨-, htrace | hnone⟩ := reads_of_jsonText h
    · have hv := valid_of_trace htrace
      obtain ⟨hconforms, hdepth⟩ := (isSome_readReply hv).mp (by rw [hseen]; rfl)
      exact ⟨hconforms, hdepth, (readReply_records hv hseen).mp hanswered⟩
    · rw [hnone] at hseen
      cases hseen
  · rfl

/-- **The answer is the same** in both ways of writing. -/
theorem Alike.answer_eq (h : Alike .reply v v') (htext : JsonText v text)
    (htext' : JsonText v' text') (hdistinct : DistinctReply v) : answer v = answer v' := by
  have hdepth := h.depth_iff (n := 0) (.inr rfl)
  rw [Nat.zero_add, Nat.zero_add] at hdepth
  have hiff : (Conforms v ∧ v.depth ≤ maxDepth ∧ Answers v) ↔
      Conforms v' ∧ v'.depth ≤ maxDepth ∧ Answers v' := by
    rw [h.conforms_iff, hdepth, h.answers_iff]
  by_cases hok : Conforms v ∧ v.depth ≤ maxDepth ∧ Answers v
  · have hok' := hiff.mp hok
    have hv := valid_of_depth htext hok.2.1
    have hv' := valid_of_depth htext' hok'.2.1
    obtain ⟨failed, hanswer, hfailed⟩ := answer_of_accepted hv hok
    obtain ⟨failed', hanswer', hfailed'⟩ := answer_of_accepted hv' hok'
    have hsame : failed = failed' := by
      rw [Bool.eq_iff_iff, hfailed, hfailed', h.hasError_iff]
    rw [hanswer, hanswer', hsame, h.replyAddresses_eq hv hv' hdistinct ⟨hok.1, hok.2.1⟩]
  · rw [answer_of_rejected htext hok, answer_of_rejected htext' (mt hiff.mpr hok)]

/-! ## what the addresses are -/

/-- A number with this integer value. -/
def IsValue (v : Value) (n : Int) : Prop := ∃ text, v = .number text ∧ IsInteger text n

/-- What an entry declares; without `ifindex` it is zero. -/
structure Declares (ms : List (List Char × Value)) (ifindex family : Int) (octets : List UInt8) :
    Prop where
  ifindex : (∃ m ∈ ms, Named m.1 "ifindex" ∧ IsValue m.2 ifindex) ∨
    (∀ m ∈ ms, ¬ Named m.1 "ifindex") ∧ ifindex = 0
  family : ∃ m ∈ ms, Named m.1 "family" ∧ IsValue m.2 family
  address : ∃ m ∈ ms, Named m.1 "address" ∧ ∃ vs, m.2 = .array vs ∧ vs.length = octets.length ∧
    ∀ (i : Nat) v (octet : UInt8), vs[i]? = some v → octets[i]? = some octet → IsValue v octet.toNat

theorem isValue_of_asNumber (hv : Valid v) (h : (asNumber integerI32 depth v).toOption = some n) :
    IsValue v n := by
  cases v with
  | number text =>
    have hn : integerI32 text = .ok n := by
      cases hvalue : integerI32 text with
      | error kind =>
        rw [asNumber, hvalue] at h
        cases h
      | ok m =>
        rw [asNumber, hvalue] at h
        cases h
        rfl
    exact ⟨text, rfl, (isInteger_of_tryFrom hv.number hn).1⟩
  | null | boolean | string | array | object => cases h

theorem octetValue_some (h : Number text) (hoctet : (octetValue text).toOption = some octet) :
    IsInteger text octet.toNat := by
  unfold octetValue at hoctet
  cases hint : integer text with
  | error kind =>
    rw [hint] at hoctet
    cases hoctet
  | ok m =>
    rw [hint] at hoctet
    cases htry : tryFrom 0 255 m with
    | error kind =>
      simp only [bind, Except.bind, htry] at hoctet
      cases hoctet
    | ok n =>
      simp only [bind, Except.bind, htry] at hoctet
      cases hoctet
      have hread : (do tryFrom 0 255 (← integer text) : Except ReplyErrorKind Int) = .ok n := by
        rw [hint]
        exact htry
      obtain ⟨hn, hlow, hhigh⟩ := isInteger_of_tryFrom h hread
      have hvalue : ((UInt8.ofNat n.toNat).toNat : Int) = n := by
        rw [UInt8.toNat_ofNat']
        omega
      rw [hvalue]
      exact hn

theorem readOctet_some (hv : Valid v) (h : (readOctet octets v).result = some octets') :
    ∃ octet, octets' = octets ++ [octet] ∧ IsValue v octet.toNat := by
  cases v with
  | number text =>
    rw [readOctet] at h
    split at h
    · obtain ⟨octet, hoctet, rfl⟩ := result_bind_pure h
      rw [result_scalar] at hoctet
      exact ⟨octet, rfl, text, rfl, octetValue_some hv.number hoctet⟩
    · cases h
  | null | boolean | string | array | object => cases h

theorem octets_some {vs : List Value} (hv : ∀ v ∈ vs, Valid v)
    (h : (vs.foldlM readOctet octets).result = some octets') :
    ∃ more, octets' = octets ++ more ∧ vs.length = more.length ∧
      ∀ (i : Nat) v (octet : UInt8), vs[i]? = some v → more[i]? = some octet →
        IsValue v octet.toNat := by
  induction vs generalizing octets with
  | nil =>
    cases h
    exact ⟨[], (List.append_nil _).symm, rfl, nofun⟩
  | cons v vs ih =>
    rw [List.foldlM_cons, Reading.result_bind] at h
    obtain ⟨octets₁, h₁, h₂⟩ := Option.bind_eq_some_iff.mp h
    obtain ⟨octet, rfl, hvalue⟩ := readOctet_some (hv v (.head _)) h₁
    obtain ⟨more, rfl, hlength, hmore⟩ := ih (fun v' hv' => hv v' (.tail _ hv')) h₂
    refine ⟨octet :: more, by simp, by simp [hlength], fun i v' octet' hv' ho' => ?_⟩
    cases i with
    | zero =>
      cases hv'
      cases ho'
      exact hvalue
    | succ i => exact hmore i v' octet' hv' ho'

theorem readAddress_some (hv : Valid v) (h : (readAddress v).result = some octets) :
    ∃ vs, v = .array vs ∧ vs.length = octets.length ∧
      ∀ (i : Nat) v (octet : UInt8), vs[i]? = some v → octets[i]? = some octet →
        IsValue v octet.toNat := by
  cases v with
  | array vs =>
    rw [readAddress, result_accept_bind, Reading.result_bind] at h
    obtain ⟨octets', hfold, hend⟩ := Option.bind_eq_some_iff.mp h
    cases hend
    obtain ⟨more, hmore, hlength, hvalues⟩ := octets_some (fun _ => hv.element) hfold
    rw [hmore]
    exact ⟨vs, rfl, hlength, hvalues⟩
  | null | boolean | string | number | object => cases h

/-- An accepted entry with distinct names has one address, which it declares. -/
theorem entryAddresses_declares (hv : Valid (.object ms)) (hdistinct : DistinctNames ms)
    (hok : IsEntry (.object ms) ∧ 3 + (Value.object ms).depth ≤ maxDepth) :
    ∃ ifindex family octets, Declares ms ifindex family octets ∧
      entryAddresses (.object ms) = [resolvedAddress ifindex family octets] := by
  obtain ⟨entry, hentry, hsome⟩ := exists_entryOf ((isSome_readEntry hv).mpr hok)
  obtain ⟨hifindex, hfamily, haddress⟩ := entryOf_setOnce hv hentry
  obtain ⟨ms', hms, hmembers, ⟨mf, hmf, hnf⟩, ma, hma, hna⟩ := hok.1
  cases hms
  have hfamily := (hfamily (hdistinct.namedOnce _)).1 mf hmf hnf
  have haddress := (haddress (hdistinct.namedOnce _)).1 ma hma hna
  have hifindex := hifindex (hdistinct.namedOnce _)
  rw [entryAddresses, hentry]
  obtain ⟨ifindex, family, address⟩ := entry
  obtain ⟨family, rfl⟩ := Option.isSome_iff_exists.mp hsome.1
  obtain ⟨octets, rfl⟩ := Option.isSome_iff_exists.mp hsome.2
  refine ⟨ifindex.getD 0, family, octets, ⟨?_, ?_, ?_⟩, rfl⟩
  · by_cases hi : ∃ m ∈ ms, Named m.1 "ifindex"
    · obtain ⟨mi, hmi, hni⟩ := hi
      have hvalue : ifindex = (asNumber integerI32 4 mi.2).toOption := hifindex.1 mi hmi hni
      obtain ⟨text, n, htext, hn⟩ := (hmembers mi hmi).ifindex hni
      have hvalid := (hv.member hmi).2
      rw [htext] at hvalid
      obtain ⟨n', hn'⟩ := (isOk_integerI32 hvalid.number).mpr ⟨text, n, rfl, hn⟩
      have hsome : (asNumber integerI32 4 mi.2).toOption = some n' := by
        rw [htext, asNumber, hn']
        rfl
      rw [hvalue, hsome]
      exact .inl ⟨mi, hmi, hni, isValue_of_asNumber (hv.member hmi).2 hsome⟩
    · have hnone : ∀ m ∈ ms, ¬ Named m.1 "ifindex" := fun m hm hn => hi ⟨m, hm, hn⟩
      have hvalue : ifindex = none := hifindex.2 hnone
      rw [hvalue]
      exact .inr ⟨hnone, rfl⟩
  · exact ⟨mf, hmf, hnf, isValue_of_asNumber (hv.member hmf).2 hfamily.symm⟩
  · exact ⟨ma, hma, hna, readAddress_some (hv.member hma).2 haddress.symm⟩

/-- The entries of `parameters.addresses`. -/
def AddressEntries (v : Value) (es : List Value) : Prop :=
  ∃ ms, v = .object ms ∧ ∃ m ∈ ms, Named m.1 "parameters" ∧
    ∃ ps, m.2 = .object ps ∧ ∃ p ∈ ps, Named p.1 "addresses" ∧ p.2 = .array es

/-- The entry, converted. -/
def EntryConverts (port : UInt16) (e : Value) (socket : SocketAddr) : Prop :=
  ∃ ms ifindex family octets, e = .object ms ∧ Declares ms ifindex family octets ∧
    socketAddress (resolvedAddress ifindex family octets) port = .ok socket

theorem convert_entries {es : List Value}
    (hes : ∀ e ∈ es, ∃ ms ifindex family octets, e = .object ms ∧
      Declares ms ifindex family octets ∧
      entryAddresses e = [resolvedAddress ifindex family octets])
    (h : convert port (es.flatMap entryAddresses) = .ok sockets) :
    es.length = sockets.length ∧ ∀ (i : Nat) e socket, es[i]? = some e →
      sockets[i]? = some socket → EntryConverts port e socket := by
  induction es generalizing sockets with
  | nil =>
    cases h
    exact ⟨rfl, nofun⟩
  | cons e es ih =>
    obtain ⟨ms, ifindex, family, octets, he, hdeclares, haddress⟩ := hes e (.head _)
    rw [List.flatMap_cons, haddress, List.singleton_append] at h
    obtain ⟨socket, rest, hsocket, hrest, rfl⟩ := convert_cons_ok.mp h
    obtain ⟨hlength, hconverts⟩ := ih (fun e' he' => hes e' (.tail _ he')) hrest
    refine ⟨by simp [hlength], fun i e' socket' he' hsocket' => ?_⟩
    cases i with
    | zero =>
      cases he'
      cases hsocket'
      exact ⟨ms, ifindex, family, octets, he, hdeclares, hsocket⟩
    | succ i => exact hconverts i e' socket' he' hsocket'

/-- The member whose addresses are those of the object. -/
theorem exists_named_of_flatMap (hv : Valid (.object ms)) (hone : NamedOnce c ms)
    {value : Value → List γ}
    (hne : (ms.flatMap fun m => if named m.1 c.toList then value m.2 else []) ≠ []) :
    ∃ m ∈ ms, Named m.1 c ∧
      (ms.flatMap fun m => if named m.1 c.toList then value m.2 else []) = value m.2 := by
  have hset := flatMap_named_setOnce hv hone value
  by_cases hsome : ∃ m ∈ ms, Named m.1 c
  · obtain ⟨m, hm, hn⟩ := hsome
    refine ⟨m, hm, hn, (hset.1 m hm hn).trans ?_⟩
    exact if_pos ((named_iff (hv.member hm).1 c).mpr hn)
  · exact absurd (hset.2 fun m hm hn => hsome ⟨m, hm, hn⟩) hne

/-- The addresses of an accepted reply are those of `parameters.addresses`. -/
theorem replyAddresses_entries (hv : Valid v) (hdistinct : DistinctReply v)
    (hok : Conforms v ∧ v.depth ≤ maxDepth) (hne : replyAddresses v ≠ []) :
    ∃ es, AddressEntries v es ∧ replyAddresses v = es.flatMap entryAddresses ∧
      ∀ e ∈ es, ∃ ms ifindex family octets, e = .object ms ∧ Declares ms ifindex family octets ∧
        entryAddresses e = [resolvedAddress ifindex family octets] := by
  obtain ⟨⟨ms, rfl, hmembers⟩, hdepth⟩ := hok
  obtain ⟨hnames, hparameters⟩ := hdistinct ms rfl
  rw [← Nat.zero_add (Value.depth _), depth_object_le] at hdepth
  obtain ⟨m, hm, hn, heq⟩ := exists_named_of_flatMap hv (hnames.namedOnce _) hne
  have heq : replyAddresses (.object ms) = parametersAddresses m.2 := heq
  rw [heq] at hne ⊢
  -- one level further down
  obtain ⟨ps, hps, hpmembers⟩ := (hmembers m hm).parameters hn
  have hvp := (hv.member hm).2
  have hdp := hdepth.2 m hm
  obtain ⟨hpnames, haddresses⟩ := hparameters m hm hn ps hps
  rw [hps] at hne hvp hdp ⊢
  rw [depth_object_le] at hdp
  obtain ⟨p, hp, hnp, heqp⟩ := exists_named_of_flatMap hvp (hpnames.namedOnce _) hne
  have heqp : parametersAddresses (.object ps) = listAddresses p.2 := heqp
  obtain ⟨es, hes, hentries⟩ := (hpmembers p hp).addresses hnp
  have hve := (hvp.member hp).2
  have hde := hdp.2 p hp
  rw [heqp, hes]
  rw [hes] at hve hde
  rw [depth_array_le] at hde
  refine ⟨es, ⟨ms, rfl, m, hm, hn, ps, hps, p, hp, hnp, hes⟩, rfl, fun e he => ?_⟩
  have hentry := hentries e he
  obtain ⟨ms', rfl, -⟩ := hentry
  obtain ⟨ifindex, family, octets, hdeclares, haddress⟩ := entryAddresses_declares
    (hve.element he) (haddresses p hp hnp es hes _ he ms' rfl) ⟨hentries _ he, hde.2 _ he⟩
  exact ⟨ms', ifindex, family, octets, rfl, hdeclares, haddress⟩

/-- The sockets of a reply are its entries, converted in order. -/
theorem sockets_of_resultOf (h : JsonText v text) (hdistinct : DistinctReply v)
    (hresult : resultOf host port (answer v) = .ok sockets) :
    sockets ≠ [] ∧ ∃ es, AddressEntries v es ∧ es.length = sockets.length ∧
      ∀ (i : Nat) e socket, es[i]? = some e → sockets[i]? = some socket →
        EntryConverts port e socket := by
  by_cases hok : Conforms v ∧ v.depth ≤ maxDepth ∧ Answers v
  · have hv := valid_of_depth h hok.2.1
    obtain ⟨failed, hanswer, -⟩ := answer_of_accepted hv hok
    rw [hanswer, resultOf] at hresult
    cases hconvert : convert port (replyAddresses v) with
    | error e =>
      rw [hconvert] at hresult
      cases hresult
    | ok found =>
      rw [hconvert] at hresult
      dsimp only at hresult
      split at hresult
      · cases hresult
      · next hfound =>
        cases hresult
        have hne : sockets ≠ [] := fun hnil => hfound (by simp [hnil])
        have haddresses : replyAddresses v ≠ [] := fun hnil => by
          rw [hnil] at hconvert
          cases hconvert
          exact hne rfl
        obtain ⟨es, hes, heq, hdeclares⟩ :=
          replyAddresses_entries hv hdistinct ⟨hok.1, hok.2.1⟩ haddresses
        rw [heq] at hconvert
        exact ⟨hne, es, hes, convert_entries hdeclares hconvert⟩
  · rw [answer_of_rejected h hok] at hresult
    cases hresult

/-- **Ways of writing a reply**: another order of the members, other escapes in
their names and unknown members do not change what a reply with distinct names
decodes to, where both stay within the limit of a frame; and the sockets are
the entries of `parameters.addresses`, converted in order. -/
theorem decodeVarlinkReply_alike {v v' : Value} {text text' : Str} (htext : JsonText v text)
    (htext' : JsonText v' text') (hdistinct : DistinctReply v) (halike : Alike .reply v v')
    (hlength : text.bytes.length ≤ maxVarlinkReplySize)
    (hlength' : text'.bytes.length ≤ maxVarlinkReplySize) (host : Str) (port : UInt16) :
    withoutDetail (decodeVarlinkReply text'.bytes host port) =
        withoutDetail (decodeVarlinkReply text.bytes host port) ∧
      ∀ sockets, decodeVarlinkReply text.bytes host port = .ok sockets →
        sockets ≠ [] ∧ ∃ es, AddressEntries v es ∧ es.length = sockets.length ∧
          ∀ (i : Nat) e socket, es[i]? = some e → sockets[i]? = some socket →
            EntryConverts port e socket := by
  have hdecode := decodeVarlinkReply_answer htext hlength host port
  refine ⟨?_, fun sockets hsockets => ?_⟩
  · rw [decodeVarlinkReply_answer htext' hlength' host port, hdecode,
      halike.answer_eq htext htext' hdistinct]
  · rw [hsockets] at hdecode
    exact sockets_of_resultOf htext hdistinct hdecode.symm

/-! ### two ways of writing an entry -/

theorem derives_array {m : Str} (h : DerivesElements vs m) :
    Derives (.array vs) ('[' :: (m ++ [']'])) := by
  exact ⟨['['], m, [']'], structural_self _, h, structural_self _, rfl⟩

theorem derivesElements_cons (hv : Derives v a) (hvs : DerivesMoreElements vs b) :
    DerivesElements (v :: vs) (a ++ b) := by
  exact ⟨a, b, hv, hvs, rfl⟩

theorem derivesMoreElements_cons (hv : Derives v a) (hvs : DerivesMoreElements vs b) :
    DerivesMoreElements (v :: vs) (',' :: (a ++ b)) := by
  rw [DerivesMoreElements]
  exact ⟨[','], a, b, structural_self _, hv, hvs, rfl⟩

theorem derivesMoreElements_nil : DerivesMoreElements [] [] := by
  rw [DerivesMoreElements]

theorem derives_digit (h : isDigit19 c = true) : Derives (.number [c]) [c] := by
  have hdigits : ∀ d ∈ ([] : Str), isDigit d = true := by simp
  exact ⟨⟨[], [c], [], [], .inl rfl, .inr ⟨c, [], h, hdigits, rfl⟩, .inl rfl, .inl rfl, rfl⟩, rfl⟩

/-- A reply with one entry. -/
def oneEntry (ms : List (List Char × Value)) : Value :=
  .object [("parameters".toList, .object [("addresses".toList, .array [.object ms])])]

def familyMember : List Char × Value := ("family".toList, .number ['2'])

def addressMember : List Char × Value :=
  ("address".toList, .array [.number ['1'], .number ['2'], .number ['3'], .number ['4']])

theorem jsonText_oneEntry {m : Str} (h : DerivesMembers ms m) : JsonText (oneEntry ms)
      ("\x7b\"parameters\":\x7b\"addresses\":[\x7b".toList ++ (m ++ "\x7d]\x7d\x7d".toList)) := by
  have hlist := derives_array (derivesElements_cons (derives_object h) derivesMoreElements_nil)
  have hparameters := derives_object
    (derivesMembers_cons (k := "addresses".toList) rfl hlist derivesMoreMembers_nil)
  have hreply := derives_object
    (derivesMembers_cons (k := "parameters".toList) rfl hparameters derivesMoreMembers_nil)
  refine ⟨[], _, [], ws_nil, hreply, ws_nil, ?_⟩
  simp

theorem named_plain (h : c.toList.all isUnescaped = true) (hb : '\\' ∉ c.toList) :
    Named c.toList c :=
  decodes_self (chars_plain h) hb

theorem derives_family : Derives familyMember.2 ['2'] := derives_digit rfl

theorem derives_address : Derives addressMember.2 "[1,2,3,4]".toList :=
  derives_array (derivesElements_cons (derives_digit (c := '1') rfl)
    (derivesMoreElements_cons (derives_digit (c := '2') rfl)
      (derivesMoreElements_cons (derives_digit (c := '3') rfl)
        (derivesMoreElements_cons (derives_digit (c := '4') rfl) derivesMoreElements_nil))))

theorem distinct_family_address : DistinctReply (oneEntry [familyMember, addressMember]) := by
  rintro ms hms
  cases hms
  refine ⟨List.pairwise_singleton _ _, fun m hm _ => ?_⟩
  rw [List.mem_singleton.mp hm]
  rintro ps hps
  cases hps
  refine ⟨List.pairwise_singleton _ _, fun p hp _ => ?_⟩
  rw [List.mem_singleton.mp hp]
  rintro vs hvs e he
  cases hvs
  rw [List.mem_singleton.mp he]
  rintro es hes
  cases hes
  refine List.pairwise_pair.mpr fun cs hcs => ?_
  have hfamily : Named familyMember.1 "family" := named_plain rfl (by decide)
  have haddress : Named familyMember.1 "address" := by
    have hself : Named addressMember.1 "address" := named_plain rfl (by decide)
    rw [Named, decodes_unique hself hcs.2]
    exact hcs.1
  exact absurd (hfamily.unique haddress) (by decide)

theorem Alike.singleton (name : Str) (h : Alike (l.member name) v v') :
    Alike l (.object [(name, v)]) (.object [(name, v')]) := by
  refine .object [((name, v), (name, v'))] [] (fun p hp => ?_) (fun p hp => ?_) nofun (.refl _)
  · rw [List.mem_singleton.mp hp]
    exact .inl rfl
  · rw [List.mem_singleton.mp hp]
    exact h

theorem alike_swap (m m' : List Char × Value) :
    Alike .reply (oneEntry [m, m']) (oneEntry [m', m]) := by
  refine .singleton _ ?_
  refine .singleton _ ?_
  refine .array [(.object [m, m'], .object [m', m])] fun p hp => ?_
  rw [List.mem_singleton.mp hp]
  refine .object [(m, m), (m', m')] [] (fun p hp => ?_) (fun p hp => ?_) nofun (.swap _ _ _)
  · simp only [List.mem_cons, List.not_mem_nil, or_false] at hp
    rcases hp with rfl | rfl <;> exact .inl rfl
  · simp only [List.mem_cons, List.not_mem_nil, or_false] at hp
    rcases hp with rfl | rfl <;> exact .same

/-- The members of an entry in the other order. -/
theorem decodeVarlinkReply_alike_swap :
    withoutDetail (decodeVarlinkReply (Str.bytes
      ("\x7b\"parameters\":\x7b\"addresses\":[\x7b".toList ++
      ("\"address\":[1,2,3,4],\"family\":2".toList ++ "\x7d]\x7d\x7d".toList))) [] 80) =
      .ok [.v4 #v[1, 2, 3, 4] 80] := by
  have htext := jsonText_oneEntry (derivesMembers_cons (k := "family".toList) rfl derives_family
    (derivesMoreMembers_cons (k := "address".toList) rfl derives_address derivesMoreMembers_nil))
  have htext' := jsonText_oneEntry (derivesMembers_cons (k := "address".toList) rfl derives_address
    (derivesMoreMembers_cons (k := "family".toList) rfl derives_family derivesMoreMembers_nil))
  refine Eq.trans (decodeVarlinkReply_alike htext htext' distinct_family_address
    (alike_swap familyMember addressMember) (by decide) (by decide) [] 80).1 ?_
  rw [decodeVarlinkReply_answer htext (by decide)]
  have hanswer : answer (oneEntry [familyMember, addressMember]) =
      some (false, [resolvedAddress 0 2 [1, 2, 3, 4]]) := by
    decide +kernel
  refine Eq.trans (congrArg (resultOf [] 80) hanswer) ?_
  rfl

/-! ### the limit of a frame -/

theorem length_le_bytes (s : Str) : s.length ≤ s.bytes.length := by
  induction s with
  | nil => exact Nat.le_refl _
  | cons c s ih =>
    have hpos := c.utf8Size_pos
    rw [Str.length_bytes, Str.len_cons, ← Str.length_bytes, List.length_cons]
    omega

/-- A reply with an error, and the same reply with an unknown member. -/
def errorTree : Value := .object [("error".toList, .string ['e'])]

def paddedTree (padding : Str) : Value :=
  .object [("error".toList, .string ['e']), (['x'], .string padding)]

theorem jsonText_errorTree : JsonText errorTree "\x7b\"error\":\"e\"\x7d".toList := by
  have hobject := derives_object (derivesMembers_cons (k := "error".toList) rfl
    (derives_string (chars_plain (w := ['e']) rfl)) derivesMoreMembers_nil)
  exact ⟨[], _, [], ws_nil, hobject, ws_nil, rfl⟩

theorem exists_jsonText_paddedTree (h : padding.all isUnescaped = true) :
    ∃ text : Str, JsonText (paddedTree padding) text ∧ padding.length ≤ text.length := by
  have hobject := derives_object (derivesMembers_cons (k := "error".toList) rfl
    (derives_string (chars_plain (w := ['e']) rfl))
    (derivesMoreMembers_cons (k := ['x']) rfl (derives_string (chars_plain h))
      derivesMoreMembers_nil))
  refine ⟨_, ⟨[], _, [], ws_nil, hobject, ws_nil, rfl⟩, ?_⟩
  simp
  omega

theorem distinct_errorTree : DistinctReply errorTree := by
  rintro ms hms
  cases hms
  refine ⟨List.pairwise_singleton _ _, fun m hm hn => ?_⟩
  rw [List.mem_singleton.mp hm] at hn
  exact absurd (hn.unique (named_plain (c := "error") rfl (by decide))) (by decide)

theorem alike_paddedTree (padding : Str) : Alike .reply errorTree (paddedTree padding) := by
  have hx : Named ['x'] "x" := named_plain (c := "x") rfl (by decide)
  refine .object [(("error".toList, .string ['e']), ("error".toList, .string ['e']))]
    [(['x'], .string padding)] (fun p hp => ?_) (fun p hp => ?_) (fun m hm => ?_) (.refl _)
  · rw [List.mem_singleton.mp hp]
    exact .inl rfl
  · rw [List.mem_singleton.mp hp]
    exact .same
  · rw [List.mem_singleton.mp hm]
    refine ⟨⟨_, rfl, fun c hc hn => ?_⟩, by rw [depth_string]; decide⟩
    rw [← hx.unique hn] at hc
    exact absurd hc (by decide)

/-- An unknown member that makes the reply too long for a frame. -/
theorem exists_alike_too_long :
    ∃ (v v' : Value) (text text' : Str), JsonText v text ∧ JsonText v' text' ∧ DistinctReply v ∧
      Alike .reply v v' ∧ withoutDetail (decodeVarlinkReply text.bytes [] 80) =
        .error (.hostNotFound []) ∧
      decodeVarlinkReply text'.bytes [] 80 =
        .error (protocolError "reply exceeded the 65536-byte limit") := by
  have hplain : ∀ n, (List.replicate n 'a').all isUnescaped = true := by
    intro n
    simp [isUnescaped]
  obtain ⟨text', htext', hlength⟩ :=
    exists_jsonText_paddedTree (hplain (maxVarlinkReplySize + 1))
  refine ⟨errorTree, paddedTree _, _, text', jsonText_errorTree, htext', distinct_errorTree,
    alike_paddedTree _, ?_, ?_⟩
  · rw [decodeVarlinkReply_answer jsonText_errorTree (by decide)]
    rfl
  · have hbytes := length_le_bytes text'
    rw [List.length_replicate] at hlength
    rw [decodeVarlinkReply, if_pos (by omega)]

end Kimojio.Resolver
