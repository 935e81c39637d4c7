/-!
# Kimojio.Frames

Streams of frames that end with a terminator. `split` cuts a stream into its
complete frames, each with its terminator, and what follows the last of them.
-/

namespace Kimojio.Frames

variable (stop : α → Bool)

/-- One more element of the stream. -/
def push (s : List (List α) × List α) (a : α) : List (List α) × List α :=
  if stop a then (s.1 ++ [s.2 ++ [a]], []) else (s.1, s.2 ++ [a])

/-- The complete frames of a stream, and what follows them. -/
def split (xs : List α) : List (List α) × List α := xs.foldl (push stop) ([], [])

variable {stop}

theorem split_append (xs ys : List α) :
    split stop (xs ++ ys) = ys.foldl (push stop) (split stop xs) :=
  List.foldl_append

theorem foldl_push (h : ∀ a ∈ ys, stop a = false) (s : List (List α) × List α) :
    ys.foldl (push stop) s = (s.1, s.2 ++ ys) := by
  induction ys generalizing s with
  | nil => simp
  | cons a ys ih =>
    rw [List.foldl_cons, ih fun b hb => h b (.tail _ hb)]
    simp [push, h a (.head _)]

theorem split_part (hxs : (split stop xs).2 = []) (h : ∀ a ∈ ys, stop a = false) :
    split stop (xs ++ ys) = ((split stop xs).1, ys) := by
  rw [split_append, foldl_push h, hxs, List.nil_append]

theorem split_frame (hxs : (split stop xs).2 = []) (h : ∀ a ∈ ys, stop a = false)
    (he : stop e = true) :
    split stop (xs ++ (ys ++ [e])) = ((split stop xs).1 ++ [ys ++ [e]], []) := by
  rw [← List.append_assoc, split_append, split_part hxs h]
  simp [push, he]

/-- The frames that are there already stay in front. -/
theorem foldl_push_append (ys : List α) (fs : List (List α)) (s : List (List α) × List α) :
    ys.foldl (push stop) (fs ++ s.1, s.2) =
      (fs ++ (ys.foldl (push stop) s).1, (ys.foldl (push stop) s).2) := by
  induction ys generalizing s with
  | nil => rfl
  | cons a ys ih =>
    have hpush : push stop (fs ++ s.1, s.2) a = (fs ++ (push stop s a).1, (push stop s a).2) := by
      unfold push
      split
      · rw [List.append_assoc]
      · rfl
    rw [List.foldl_cons, List.foldl_cons, hpush, ih]

theorem prefix_foldl_push (ys : List α) (s : List (List α) × List α) :
    s.1 <+: (ys.foldl (push stop) s).1 := by
  have hfront := @foldl_push_append _ stop ys s.1 ([], s.2)
  rw [List.append_nil] at hfront
  exact ⟨_, (congrArg Prod.fst hfront).symm⟩

/-- A longer stream keeps its frames. -/
theorem prefix_split (xs ys : List α) : (split stop xs).1 <+: (split stop (xs ++ ys)).1 := by
  rw [split_append]
  exact prefix_foldl_push ys _

theorem split_cons (h : ∀ a ∈ ys, stop a = false) (he : stop e = true) (rest : List α) :
    split stop (ys ++ e :: rest) = ((ys ++ [e]) :: (split stop rest).1, (split stop rest).2) := by
  have hfirst : split stop ([] ++ (ys ++ [e])) = ([ys ++ [e]], []) := split_frame rfl h he
  have hcut : ys ++ e :: rest = (ys ++ [e]) ++ rest := by simp
  rw [hcut, split_append, ← List.nil_append (ys ++ [e]), hfirst]
  exact foldl_push_append rest [ys ++ [e]] ([], [])

/-- The complete frames without their terminators. -/
def frames (stop : α → Bool) (xs : List α) : List (List α) :=
  (split stop xs).1.map List.dropLast

/-- The frames without their terminators, and then what follows them. -/
def pieces (stop : α → Bool) (xs : List α) : List (List α) :=
  frames stop xs ++ [(split stop xs).2]

section
variable {ys : List α} (h : ∀ a ∈ ys, stop a = false)
include h

theorem frames_cons (he : stop e = true) (rest : List α) :
    frames stop (ys ++ e :: rest) = ys :: frames stop rest := by
  rw [frames, split_cons h he, List.map_cons, List.dropLast_concat, frames]

theorem pieces_cons (he : stop e = true) (rest : List α) :
    pieces stop (ys ++ e :: rest) = ys :: pieces stop rest := by
  rw [pieces, frames_cons h he, split_cons h he, List.cons_append, pieces]

theorem split_unfinished : split stop ys = ([], ys) :=
  foldl_push h ([], [])

/-- The first piece goes at least up to the first terminator. -/
theorem head_pieces (rest : List α) :
    ∃ piece, (pieces stop (ys ++ rest))[0]? = some piece ∧ ys <+: piece := by
  have hstart : split stop (ys ++ rest) = rest.foldl (push stop) ([], ys) := by
    rw [split_append, split_unfinished h]
  unfold pieces frames
  rw [hstart]
  clear hstart h
  induction rest generalizing ys with
  | nil => exact ⟨ys, rfl, List.prefix_rfl⟩
  | cons a rest ih =>
    rw [List.foldl_cons, push]
    split
    · -- the piece ends here, and stays the first
      have hprefix : [ys ++ [a]] <+: (rest.foldl (push stop) ([ys ++ [a]], [])).1 :=
        prefix_foldl_push rest ([ys ++ [a]], [])
      obtain ⟨more, hmore⟩ := hprefix
      refine ⟨ys, ?_, List.prefix_rfl⟩
      rw [List.nil_append, ← hmore]
      simp
    · obtain ⟨piece, hpiece, hprefix⟩ := @ih (ys ++ [a])
      exact ⟨piece, hpiece, (List.prefix_append _ _).trans hprefix⟩

end

/-- A list is cut in one way at the first `e`. -/
theorem cut_unique {xs ys : List α} (hxs : e ∉ xs) (hys : e ∉ ys)
    (h : xs ++ e :: xs' = ys ++ e :: ys') :
    xs = ys ∧ xs' = ys' := by
  classical
  have hcut {l : List α} (hl : e ∉ l) (rest : List α) :
      (l ++ e :: rest).takeWhile (· ≠ e) = l := by
    have hne (a : α) (ha : a ∈ l) : decide (a ≠ e) = true := decide_eq_true fun heq => hl (heq ▸ ha)
    rw [List.takeWhile_append_of_pos hne]
    simp
  have hsame := congrArg (List.takeWhile (· ≠ e)) h
  rw [hcut hxs, hcut hys] at hsame
  subst hsame
  exact ⟨rfl, (List.cons.inj (List.append_cancel_left h)).2⟩

end Kimojio.Frames
