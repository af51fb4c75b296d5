import Mathlib.Data.List.Basic

/-!
# Lines of a stream

A list is cut behind each separator into lines, and a rest that has none. What arrives piece by
piece is cut into the same lines, if the rest of what came before is put in front of each piece.
-/

namespace Lines

variable {α : Type*} [DecidableEq α]

/-- The lines of a list behind `line`, which has no end yet, and the rest. -/
def cut (sep : α) : List α → List α → List (List α) × List α
  | line, [] => ([], line)
  | line, a :: s =>
    if a = sep then (line :: (cut sep [] s).1, (cut sep [] s).2) else cut sep (line ++ [a]) s

/-- The lines of a list, and the rest. -/
def split (sep : α) (s : List α) : List (List α) × List α := cut sep [] s

variable {sep : α} {line s t : List α}

@[simp]
theorem split_nil : split sep [] = ([], []) := rfl

/-- A list without a separator is no line. -/
theorem cut_of_notMem (h : sep ∉ s) : cut sep line s = ([], line ++ s) := by
  induction s generalizing line with
  | nil => rw [cut, List.append_nil]
  | cons a s ih =>
    obtain ⟨hne, hs⟩ := not_or.mp (List.mem_cons.not.mp h)
    rw [cut, if_neg (Ne.symm hne), ih hs, List.append_assoc, List.singleton_append]

/-- The beginning of a line may be moved to the list. -/
theorem cut_append (h : sep ∉ line) : cut sep [] (line ++ s) = cut sep line s := by
  suffices ∀ pre, cut sep pre (line ++ s) = cut sep (pre ++ line) s from this []
  induction line with
  | nil => simp
  | cons a line ih =>
    obtain ⟨hne, hline⟩ := not_or.mp (List.mem_cons.not.mp h)
    intro pre
    rw [List.cons_append, cut, if_neg (Ne.symm hne), ih hline, List.append_assoc,
      List.singleton_append]

theorem split_of_notMem (h : sep ∉ s) : split sep s = ([], s) := cut_of_notMem h

/-- The first line. -/
theorem split_line (h : sep ∉ line) :
    split sep (line ++ sep :: s) = (line :: (split sep s).1, (split sep s).2) := by
  rw [split, cut_append h, cut, if_pos rfl]
  rfl

/-- Every list is without a separator, or it has a first line. -/
theorem exists_line (sep : α) (s : List α) : sep ∉ s ∨ ∃ line t, sep ∉ line ∧ s = line ++ sep :: t := by
  by_cases h : sep ∈ s
  · obtain ⟨line, t, hs, hline⟩ := List.eq_append_cons_of_mem h
    exact .inr ⟨line, t, hline, hs⟩
  · exact .inl h

/-- Induction over the lines of a list. -/
@[elab_as_elim]
theorem induction {motive : List α → Prop} (sep : α) (rest : ∀ s, sep ∉ s → motive s)
    (line : ∀ line t, sep ∉ line → motive t → motive (line ++ sep :: t)) (s : List α) :
    motive s := by
  rcases exists_line sep s with h | ⟨l, t, hl, hs⟩
  · exact rest s h
  · have hlt : t.length < s.length := by
      rw [hs, List.length_append, List.length_cons]
      omega
    rw [hs]
    exact line l t hl (induction sep rest line t)
termination_by s.length

/-- The rest of a list has no separator. -/
theorem notMem_rest (s : List α) : sep ∉ (split sep s).2 := by
  induction s using induction sep with
  | rest s h => rwa [split_of_notMem h]
  | line line t h ih => rwa [split_line h]

/-- Lines and rest make up the list. -/
theorem flatten_split (sep : α) (s : List α) :
    ((split sep s).1.map (· ++ [sep])).flatten ++ (split sep s).2 = s := by
  induction s using induction sep with
  | rest s h => simp [split_of_notMem h]
  | line line t h ih =>
    rw [split_line h, List.map_cons, List.flatten_cons, List.append_assoc, ih]
    simp

/-- A stream in two pieces: the lines of the first, and those of its rest with the second. -/
theorem split_append (s t : List α) : split sep (s ++ t) =
    ((split sep s).1 ++ (split sep ((split sep s).2 ++ t)).1,
      (split sep ((split sep s).2 ++ t)).2) := by
  induction s using induction sep with
  | rest s h => simp [split_of_notMem h]
  | line line u h ih =>
    rw [List.append_assoc, List.cons_append, split_line h, split_line h, ih]
    rfl

/-- There is a line exactly if there is a separator. -/
theorem split_fst_eq_nil : (split sep s).1 = [] ↔ sep ∉ s := by
  rcases exists_line sep s with h | ⟨line, t, h, rfl⟩
  · simp [split_of_notMem h, h]
  · simp [split_line h]

/-- With a line, the rest is shorter than the list. -/
theorem length_rest_lt (h : sep ∈ s) : (split sep s).2.length < s.length := by
  have hs := congrArg List.length (flatten_split sep s)
  rcases exists_line sep s with hno | ⟨line, t, hline, rfl⟩
  · exact absurd h hno
  · rw [split_line hline] at hs ⊢
    simp only [List.map_cons, List.flatten_cons, List.length_append, List.length_cons] at hs ⊢
    omega

end Lines
