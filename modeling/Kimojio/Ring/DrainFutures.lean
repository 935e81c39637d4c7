import Kimojio.Coroutine

/-!
# Kimojio.Ring.DrainFutures

`io_scope_drain_futures`: the results of a stream are accumulated up to the
first error, at which the pending I/O of the scope is canceled; the rest of
the stream is taken and ignored.

The function is a loop that is suspended where the stream is. What it does
besides is a list of acts, in order, and `drain_eq` says what that list is for
every stream that ends.
-/

namespace Kimojio.Ring

/-- What a poll of the stream answers. -/
inductive StreamPoll (T : Type u) (ε : Type v) where
  | pending
  | item (next : Except ε T)
  | finished

/-- What the function does: it takes an item, calls the accumulator with a
value, or calls `io_scope_cancel`. -/
inductive DrainAct (T : Type u) (ε : Type v) where
  | take (next : Except ε T)
  | apply (value : T)
  | cancel

section

variable (acc : α → T → α)

/-- The body of the loop, for one item. -/
def drainItem (s : List (DrainAct T ε) × Except ε α) (next : Except ε T) :
    List (DrainAct T ε) × Except ε α :=
  match next, s.2 with
  | .ok value, .ok current =>
    (s.1 ++ [.take (.ok value), .apply value], .ok (acc current value))
  | .ok value, .error first => (s.1 ++ [.take (.ok value)], .error first)
  | .error e, .ok _ => (s.1 ++ [.take (.error e), .cancel], .error e)
  | .error e, .error first => (s.1 ++ [.take (.error e)], .error first)

/-- One round of the loop. -/
def drainRound (t : StreamPoll T ε) (acts : List (DrainAct T ε)) (result : Except ε α) :
    List (DrainAct T ε) × Resume (Except ε α) (Except ε α) :=
  match t with
  | .pending => (acts, .suspend result)
  | .finished => (acts, .ret result)
  | .item next =>
    let (acts, result) := drainItem acc (acts, result) next
    (acts, .goto result)

/-- The loop, polled again whenever it is suspended; no result if the answers
of the stream do not last. -/
def drainLoop : List (StreamPoll T ε) → List (DrainAct T ε) → Except ε α →
    List (DrainAct T ε) × Option (Except ε α)
  | [], acts, _ => (acts, none)
  | t :: ts, acts, result =>
    match drainRound acc t acts result with
    | (acts, .goto result) | (acts, .suspend result) => drainLoop ts acts result
    | (acts, .ret result) => (acts, some result)

def ioScopeDrainFutures (result : Except ε α) (polls : List (StreamPoll T ε)) :
    List (DrainAct T ε) × Option (Except ε α) :=
  match result with
  | .error _ => drainLoop acc polls [.cancel] result
  | .ok _ => drainLoop acc polls [] result

end

/-- The items of a stream, which ends where it answers that it has. -/
def StreamPoll.items : List (StreamPoll T ε) → List (Except ε T)
  | [] | .finished :: _ => []
  | .pending :: ts => items ts
  | .item next :: ts => next :: items ts

/-- The acts while there is no error. -/
def accumulates (values : List T) : List (DrainAct T ε) :=
  values.flatMap fun value => [.take (.ok value), .apply value]

/-! ## The loop -/

section

variable {acc : α → T → α}

/-- A stream that ends: where it is suspended makes no difference. -/
theorem drainLoop_eq {ts : List (StreamPoll T ε)} (hend : .finished ∈ ts)
    (acts : List (DrainAct T ε)) (result : Except ε α) :
    drainLoop acc ts acts result = (((StreamPoll.items ts).foldl (drainItem acc) (acts, result)).1,
        some ((StreamPoll.items ts).foldl (drainItem acc) (acts, result)).2) := by
  induction ts generalizing acts result with
  | nil => simp at hend
  | cons t ts ih =>
    cases t with
    | finished => rfl
    | pending => exact ih (by simpa using hend) acts result
    | item next => exact ih (by simpa using hend) _ _

theorem foldl_ok (values : List T) (acts : List (DrainAct T ε)) (current : α) :
    (values.map .ok).foldl (drainItem acc) (acts, .ok current) =
      (acts ++ accumulates values, .ok (values.foldl acc current)) := by
  induction values generalizing acts current with
  | nil => simp [accumulates]
  | cons value values ih =>
    have hitem : drainItem acc (acts, .ok current) (.ok value) =
        (acts ++ [.take (.ok value), .apply value], .ok (acc current value)) := rfl
    rw [List.map_cons, List.foldl_cons, List.foldl_cons, hitem, ih]
    simp [accumulates]

/-- After an error the items are only taken. -/
theorem foldl_error (items : List (Except ε T)) (acts : List (DrainAct T ε)) (first : ε) :
    items.foldl (drainItem acc) (acts, .error first) = (acts ++ items.map .take, .error first) := by
  induction items generalizing acts with
  | nil => simp
  | cons item items ih =>
    cases item <;> simp [drainItem, ih]

end

/-- The values of a stream up to its first error, if it has one. -/
theorem exists_values (items : List (Except ε T)) : ∃ values : List T, items = values.map .ok ∨
      ∃ e rest, items = values.map .ok ++ .error e :: rest := by
  induction items with
  | nil => exact ⟨[], .inl rfl⟩
  | cons item items ih =>
    cases item with
    | error e => exact ⟨[], .inr ⟨e, items, rfl⟩⟩
    | ok value =>
      obtain ⟨values, h | ⟨e, rest, h⟩⟩ := ih
      · exact ⟨value :: values, .inl (by simp [h])⟩
      · exact ⟨value :: values, .inr ⟨e, rest, by simp [h]⟩⟩

/-- **Draining**: a stream is taken to its end. The first error, of the result
that the function is given or of the stream, is returned, and `io_scope_cancel`
is called right at it and not again; the accumulator is called with the values
before it. Without an error the values are accumulated in order, and nothing is
canceled. -/
theorem drain_eq (acc : α → T → α) (result : Except ε α) (polls : List (StreamPoll T ε))
    (hend : .finished ∈ polls) :
    (∀ e, result = .error e → ioScopeDrainFutures acc result polls =
      (.cancel :: (StreamPoll.items polls).map .take, some (.error e))) ∧
    ∀ current, result = .ok current → ∃ values : List T,
      StreamPoll.items polls = values.map .ok ∧ ioScopeDrainFutures acc result polls =
        (accumulates values, some (.ok (values.foldl acc current))) ∨
      ∃ e rest, StreamPoll.items polls = values.map .ok ++ .error e :: rest ∧
        ioScopeDrainFutures acc result polls =
          (accumulates values ++ [.take (.error e), .cancel] ++ rest.map .take,
            some (.error e)) := by
  refine ⟨?_, ?_⟩
  · rintro e rfl
    rw [ioScopeDrainFutures, drainLoop_eq hend, foldl_error]
    rfl
  · rintro current rfl
    rw [ioScopeDrainFutures, drainLoop_eq hend]
    obtain ⟨values, h | ⟨e, rest, h⟩⟩ := exists_values (StreamPoll.items polls)
    · refine ⟨values, .inl ⟨h, ?_⟩⟩
      rw [h, foldl_ok]
      rfl
    · refine ⟨values, .inr ⟨e, rest, h, ?_⟩⟩
      have hitem (acts : List (DrainAct T ε)) (current : α) :
          drainItem acc (acts, .ok current) (.error e) =
            (acts ++ [.take (.error e), .cancel], .error e) := rfl
      rw [h, List.foldl_append, foldl_ok, List.foldl_cons, hitem, foldl_error]
      rfl

/-- A stream with an error between two values, suspended once. -/
theorem drain_eq_sum : ∃ values : List Nat,
    [Except.ok 1, .error 7, .ok 2] = values.map .ok ++ .error 7 :: [.ok 2] ∧
      ioScopeDrainFutures (· + ·) (.ok 0)
        [.item (.ok 1), .pending, .item (.error 7), .item (.ok 2), .finished] =
          (accumulates values ++ [.take (.error 7), .cancel] ++ [.take (.ok 2)],
            some (.error 7)) := by
  obtain ⟨values, ⟨h, -⟩ | ⟨e, rest, h, heq⟩⟩ := (drain_eq (· + ·) (Except.ok 0)
    [.item (.ok 1), .pending, .item (.error 7), .item (.ok 2), .finished] (by simp)).2 0 rfl
  · rcases values with - | ⟨_, - | ⟨_, values⟩⟩ <;> simp [StreamPoll.items] at h
  · rcases values with - | ⟨value, - | ⟨_, values⟩⟩ <;> simp [StreamPoll.items] at h
    obtain ⟨rfl, rfl, rfl⟩ := h
    exact ⟨[1], rfl, heq⟩

end Kimojio.Ring
