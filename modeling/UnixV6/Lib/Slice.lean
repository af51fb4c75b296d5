import Mathlib

/-!
# Slices of an unbounded array

An array is a function on positions. `slice data a b` lists its elements from `a` up to `b`, and
`overwrite data off bs` puts the list `bs` at `off`.
-/

variable {β : Type*}

/-- The elements at the positions `a ≤ i < b`. -/
def slice (data : ℕ → β) (a b : ℕ) : List β := (List.range' a (b - a)).map data

/-- The array after the list `bs` has been written at `off`. -/
def overwrite (data : ℕ → β) (off : ℕ) (bs : List β) : ℕ → β := fun i =>
  if off ≤ i then bs.getD (i - off) (data i) else data i

variable {data data' : ℕ → β} {a b c off : ℕ} {bs : List β}

@[simp] theorem slice_self (data : ℕ → β) (a : ℕ) : slice data a a = [] := by
  simp [slice]

@[simp] theorem length_slice (data : ℕ → β) (a b : ℕ) : (slice data a b).length = b - a := by
  simp [slice]

/-- Adjacent slices join. -/
theorem slice_append (data : ℕ → β) (hab : a ≤ b) (hbc : b ≤ c) :
    slice data a b ++ slice data b c = slice data a c := by
  unfold slice
  have hmid : a + 1 * (b - a) = b := by omega
  have hlen : (b - a) + (c - b) = c - a := by omega
  rw [← List.map_append, ← hlen, ← List.range'_append, hmid]

/-- A slice depends on its own range only. -/
theorem slice_congr (h : ∀ i, a ≤ i → i < b → data' i = data i) :
    slice data' a b = slice data a b := by
  unfold slice
  refine List.map_congr_left fun i hi => ?_
  rw [List.mem_range'_1] at hi
  exact h i hi.1 (by omega)

theorem overwrite_of_lt {i : ℕ} (h : i < off) : overwrite data off bs i = data i :=
  if_neg (by omega)

/-- What lies before the written part stays. -/
theorem slice_overwrite_of_le (h : b ≤ off) :
    slice (overwrite data off bs) a b = slice data a b :=
  slice_congr fun _ _ hi => overwrite_of_lt (by omega)

/-- The written part reads back. -/
theorem slice_overwrite_self : slice (overwrite data off bs) off (off + bs.length) = bs := by
  refine List.ext_getElem (by simp) fun i hi hi' => ?_
  simp [slice, overwrite, List.getD, List.getElem?_eq_getElem hi']
