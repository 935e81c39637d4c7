/-!
# Kimojio.Reading

Readings: computations that report events one after the other, and then
return a value or stop.

Two readings are compared by `Simulates`: they report the same events, and
where they return, the values are related. The rules follow the monad
operations, so that a machine that reads a list of tokens and a recursive
description of the same list are compared piece by piece.
-/

namespace Kimojio

/-- The events of a computation, and the value it returns unless it stops. -/
structure Reading (ε : Type u) (α : Type v) where
  events : List ε
  result : Option α

namespace Reading

instance : Monad (Reading ε) where
  pure a := ⟨[], some a⟩
  bind x f :=
    match x.result with
    | none => ⟨x.events, none⟩
    | some a => ⟨x.events ++ (f a).events, (f a).result⟩

/-- Reports one event. -/
def report (e : ε) : Reading ε PUnit := ⟨[e], some ⟨⟩⟩

/-- Reports one event, and stops. -/
def stop (e : ε) : Reading ε α := ⟨[e], none⟩

@[simp] theorem events_pure (a : α) : (pure a : Reading ε α).events = [] := rfl

@[simp] theorem result_pure (a : α) : (pure a : Reading ε α).result = some a := rfl

@[simp] theorem result_bind (x : Reading ε α) (f : α → Reading ε β) :
    (x >>= f).result = x.result.bind fun a => (f a).result := by
  obtain ⟨events, _ | a⟩ := x <;> rfl

theorem bind_eq_of_some {a : α} (h : x.result = some a) (f : α → Reading ε β) :
    x >>= f = ⟨x.events ++ (f a).events, (f a).result⟩ := by
  obtain ⟨events, result⟩ := x
  cases h
  rfl

theorem bind_eq_of_none (h : x.result = none) (f : α → Reading ε β) :
    x >>= f = ⟨x.events, none⟩ := by
  obtain ⟨events, result⟩ := x
  cases h
  rfl

instance : LawfulMonad (Reading ε) := LawfulMonad.mk' _
  (fun x => by obtain ⟨events, _ | a⟩ := x <;> simp [Functor.map])
  (fun _ _ => by simp [bind, pure])
  (fun x f g => by
    obtain ⟨events, _ | a⟩ := x
    · rfl
    · cases h : (f a).result <;> simp [bind, h])

/-! ## comparing readings -/

/-- The two readings report the same events, and where they return, the
values are related. -/
structure Simulates (R : α → β → Prop) (x : Reading ε α) (y : Reading ε β) : Prop where
  events_eq : x.events = y.events
  result_rel : Option.Rel R x.result y.result

namespace Simulates

theorem pure {a : α} (h : R a b) : Simulates R (pure a : Reading ε α) (pure b) :=
  ⟨rfl, .some h⟩

theorem mono (h : Simulates R x y) (hRS : ∀ a b, R a b → S a b) : Simulates S x y := by
  obtain ⟨events, result⟩ := x
  obtain ⟨events', result'⟩ := y
  obtain ⟨hev, hrel⟩ := h
  cases hrel with
  | none => exact ⟨hev, .none⟩
  | some hab => exact ⟨hev, .some (hRS _ _ hab)⟩

theorem bind (h : Simulates R x y) (hfg : ∀ a b, R a b → Simulates S (f a) (g b)) :
    Simulates S (x >>= f) (y >>= g) := by
  obtain ⟨events, result⟩ := x
  obtain ⟨events', result'⟩ := y
  obtain ⟨rfl, hrel⟩ := h
  cases hrel with
  | none => exact ⟨rfl, .none⟩
  | some hab =>
    obtain ⟨hev, hres⟩ := hfg _ _ hab
    refine ⟨?_, hres⟩
    show _ ++ (f _).events = _ ++ (g _).events
    rw [hev]

/-- A value that only one side goes on to compute. -/
theorem bind_pure_left {f : α → γ} (h : Simulates R x y)
    (hf : ∀ a b, R a b → S (f a) b) : Simulates S (x >>= fun a => Pure.pure (f a)) y := by
  rw [← bind_pure y]
  exact bind h fun a b hab => pure (hf a b hab)

/-- A list of pieces on one side against a list of pieces on the other. -/
theorem foldlM {f : α → γ → Reading ε α} {g : β → δ → Reading ε β}
    (hstep : ∀ a b c, R a b → Simulates R (f a c) ((toks c).foldlM g b)) (cs : List γ) (h : R a b) :
    Simulates R (cs.foldlM f a) ((cs.flatMap toks).foldlM g b) := by
  induction cs generalizing a b with
  | nil => exact pure h
  | cons c cs ih =>
    rw [List.foldlM_cons, List.flatMap_cons, List.foldlM_append]
    exact bind (hstep a b c h) fun a' b' h' => ih h'

end Simulates

/-! ## reading a list, one event for each entry -/

/-- Every step reports exactly one event. -/
def OneEach (f : α → β → Reading ε α) : Prop := ∀ a b, (f a b).events.length = 1

section
variable {f : α → β → Reading ε α}

theorem OneEach.length_events (hf : OneEach f) (bs : List β) (a : α) :
    (bs.foldlM f a).events.length ≤ bs.length ∧
      ((bs.foldlM f a).result.isSome → (bs.foldlM f a).events.length = bs.length) := by
  induction bs generalizing a with
  | nil => simp
  | cons b bs ih =>
    rw [List.foldlM_cons]
    have hone := hf a b
    cases hres : (f a b).result with
    | none =>
      rw [bind_eq_of_none hres]
      simp [hone]
    | some a' =>
      rw [bind_eq_of_some hres]
      have := ih a'
      simp only [List.length_append, List.length_cons, hone]
      exact ⟨by omega, fun h => by have := this.2 h; omega⟩

/-- Reading a first part reports a first part of the events, as many as there
were entries. -/
theorem OneEach.events_take (hf : OneEach f) (bs bs' : List β) (a : α) :
    (bs.foldlM f a).events = ((bs ++ bs').foldlM f a).events.take bs.length := by
  obtain ⟨hle, hlen⟩ := hf.length_events bs a
  rw [List.foldlM_append]
  cases hres : (bs.foldlM f a).result with
  | none =>
    rw [bind_eq_of_none hres]
    exact (List.take_of_length_le hle).symm
  | some a' =>
    rw [bind_eq_of_some hres]
    rw [hres] at hlen
    rw [List.take_append, ← hlen rfl, List.take_length, Nat.sub_self, List.take_zero,
      List.append_nil]

/-! ## when a reading returns -/

/-- A list is read to its end when every entry is read. -/
theorem isSome_foldlM {ok : β → Prop} {bs : List β}
    (hf : ∀ b ∈ bs, ∀ a, (f a b).result.isSome ↔ ok b) (a : α) :
    (bs.foldlM f a).result.isSome ↔ ∀ b ∈ bs, ok b := by
  induction bs generalizing a with
  | nil => simp
  | cons b bs ih =>
    have hhead := hf b (.head _) a
    have htail := ih fun b' hb' => hf b' (.tail _ hb')
    rw [List.foldlM_cons, result_bind, List.forall_mem_cons, ← hhead]
    cases (f a b).result with
    | none => simp
    | some a' => simpa using htail a'

/-- What the returned value records about the entries. -/
theorem foldlM_records {p : α → Prop} {q : β → Prop} {bs : List β}
    (hf : ∀ b ∈ bs, ∀ a a', (f a b).result = some a' → (p a' ↔ p a ∨ q b))
    (h : (bs.foldlM f a).result = some a') : p a' ↔ p a ∨ ∃ b ∈ bs, q b := by
  induction bs generalizing a with
  | nil =>
    cases h
    simp
  | cons b bs ih =>
    rw [List.foldlM_cons, result_bind] at h
    obtain ⟨a₁, h₁, h₂⟩ := Option.bind_eq_some_iff.mp h
    rw [ih (fun b' hb' => hf b' (.tail _ hb')) h₂, hf b (.head _) a a₁ h₁, or_assoc]
    simp only [List.mem_cons, exists_eq_or_imp]

end

/-- A list in which at most one entry sets something: what that entry sets, or
else what was there. -/
def SetOnce (is : β → Prop) (value : β → γ) (bs : List β) (before after : γ) : Prop :=
  (∀ b ∈ bs, is b → after = value b) ∧ ((∀ b ∈ bs, ¬ is b) → after = before)

/-- What a list sets once, read to its end. -/
theorem foldlM_setOnce {f : α → β → Reading ε α} (get : α → γ)
    (hset : ∀ b ∈ bs, is b → ∀ a a', (f a b).result = some a' → get a' = value b)
    (hkeep : ∀ b ∈ bs, ¬ is b → ∀ a a', (f a b).result = some a' → get a' = get a)
    (hone : bs.Pairwise fun b b' => ¬ (is b ∧ is b')) (h : (bs.foldlM f a).result = some a') :
    SetOnce is value bs (get a) (get a') := by
  induction bs generalizing a with
  | nil =>
    cases h
    exact ⟨nofun, fun _ => rfl⟩
  | cons b bs ih =>
    rw [List.foldlM_cons, result_bind] at h
    obtain ⟨a₁, h₁, h₂⟩ := Option.bind_eq_some_iff.mp h
    obtain ⟨hfirst, hrest⟩ := List.pairwise_cons.mp hone
    obtain ⟨hlater, hnone⟩ := ih (fun b' hb' => hset b' (.tail _ hb'))
      (fun b' hb' => hkeep b' (.tail _ hb')) hrest h₂
    refine ⟨fun c hc his => ?_, fun hall => ?_⟩
    · rcases List.mem_cons.mp hc with rfl | hc
      · rw [hnone fun b' hb' his' => hfirst b' hb' ⟨his, his'⟩]
        exact hset c (.head _) his a a₁ h₁
      · exact hlater c hc his
    · rw [hnone fun b' hb' => hall b' (.tail _ hb')]
      exact hkeep b (.head _) (hall b (.head _)) a a₁ h₁

/-- At most one entry of a list gives anything. -/
theorem flatMap_setOnce (hnone : ∀ b ∈ bs, ¬ is b → value b = [])
    (hone : bs.Pairwise fun b b' => ¬ (is b ∧ is b')) :
    SetOnce is value bs [] (bs.flatMap value) := by
  induction bs with
  | nil => exact ⟨nofun, fun _ => rfl⟩
  | cons b bs ih =>
    obtain ⟨hfirst, hrest⟩ := List.pairwise_cons.mp hone
    obtain ⟨hlater, hnil⟩ := ih (fun b' hb' => hnone b' (.tail _ hb')) hrest
    refine ⟨fun c hc his => ?_, fun hall => ?_⟩
    · rw [List.flatMap_cons]
      rcases List.mem_cons.mp hc with rfl | hc
      · rw [hnil fun b' hb' his' => hfirst b' hb' ⟨his, his'⟩, List.append_nil]
      · rw [hnone b (.head _) fun his' => hfirst c hc ⟨his', his⟩, hlater c hc his, List.nil_append]
    · rw [List.flatMap_cons, hnone b (.head _) (hall b (.head _)),
        hnil fun b' hb' => hall b' (.tail _ hb'), List.nil_append]

/-! ## the events of one kind -/

/-- The events that `p` selects, in order. -/
def collect (p : ε → Option γ) (x : Reading ε α) : List γ := x.events.filterMap p

theorem collect_bind {x : Reading ε α} (h : x.result = some a) (f : α → Reading ε β) :
    (x >>= f).collect p = x.collect p ++ (f a).collect p := by
  rw [collect, bind_eq_of_some h, List.filterMap_append]
  rfl

/-- A list that is read to its end collects what its entries give. -/
theorem foldlM_collect {f : α → β → Reading ε α} {bs : List β}
    (hf : ∀ b ∈ bs, ∀ a a', (f a b).result = some a' → (f a b).collect p = g b)
    (h : (bs.foldlM f a).result = some a') : (bs.foldlM f a).collect p = bs.flatMap g := by
  induction bs generalizing a with
  | nil => rfl
  | cons b bs ih =>
    rw [List.foldlM_cons] at h ⊢
    rw [result_bind] at h
    obtain ⟨a₁, h₁, h₂⟩ := Option.bind_eq_some_iff.mp h
    rw [collect_bind h₁, hf b (.head _) a a₁ h₁, ih (fun b' hb' => hf b' (.tail _ hb')) h₂,
      List.flatMap_cons]

/-- No event is selected. -/
def Silent (p : ε → Option γ) (x : Reading ε α) : Prop := ∀ e ∈ x.events, p e = none

theorem Silent.collect_eq {x : Reading ε α} (h : x.Silent p) : x.collect p = [] :=
  List.filterMap_eq_nil_iff.mpr h

theorem Silent.pure (a : α) : (Pure.pure a : Reading ε α).Silent p := nofun

theorem Silent.bind {f : α → Reading ε β} (h : x.Silent p)
    (hf : ∀ a, (f a).Silent p) : (x >>= f).Silent p := by
  intro e he
  cases hx : x.result with
  | none =>
    rw [bind_eq_of_none hx] at he
    exact h e he
  | some a =>
    rw [bind_eq_of_some hx] at he
    rcases List.mem_append.mp he with he | he
    · exact h e he
    · exact hf a e he

theorem Silent.foldlM {f : α → β → Reading ε α} (hf : ∀ a b, (f a b).Silent p) (bs : List β)
    (a : α) : (bs.foldlM f a).Silent p := by
  induction bs generalizing a with
  | nil => exact .pure a
  | cons b bs ih =>
    exact .bind (hf a b) ih

end Reading

end Kimojio
