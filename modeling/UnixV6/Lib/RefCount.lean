import Mathlib

/-!
# Counting the references of a table of slots

Every owner has a row of slots, each empty or pointing to some target. `slotRefs slot x` is the number
of slots, over all owners, that point to `x`. The rules say what the change of one slot and the
change of a whole row do to it, without subtraction.
-/

open Function Finset

variable {π ι κ : Type*} [Fintype π] [Fintype ι] [DecidableEq κ]

/-- 1 if the slot points to `x`. -/
def pointsTo (v : Option κ) (x : κ) : ℕ := if v = some x then 1 else 0

/-- How many slots of a row point to `x`. -/
def rowRefs (row : ι → Option κ) (x : κ) : ℕ := ∑ i, pointsTo (row i) x

/-- How many slots of the table point to `x`. -/
def slotRefs (slot : π → ι → Option κ) (x : κ) : ℕ := ∑ p, rowRefs (slot p) x

@[simp] theorem pointsTo_none (x : κ) : pointsTo none x = 0 := by simp [pointsTo]

@[simp] theorem pointsTo_self (x : κ) : pointsTo (some x) x = 1 := by simp [pointsTo]

theorem pointsTo_of_ne {v : Option κ} {x : κ} (h : v ≠ some x) : pointsTo v x = 0 := if_neg h

@[simp] theorem rowRefs_none (x : κ) : rowRefs (fun _ : ι => none) x = 0 := by
  simp [rowRefs]

@[simp] theorem slotRefs_none (x : κ) : slotRefs (fun (_ : π) (_ : ι) => none) x = 0 := by
  simp [slotRefs]

/-- A sum after one of its terms has changed. -/
theorem sum_update_add {α : Type*} [Fintype α] [DecidableEq α] {β : Type*} (g : β → ℕ) (f : α → β)
    (a : α) (b : β) : ∑ i, g (update f a b i) + g (f a) = ∑ i, g (f i) + g b := by
  have hrest : ∑ i ∈ univ.erase a, g (update f a b i) = ∑ i ∈ univ.erase a, g (f i) :=
    sum_congr rfl fun i hi => by rw [update_of_ne (ne_of_mem_erase hi)]
  have hnew := add_sum_erase univ (fun i => g (update f a b i)) (mem_univ a)
  have hold := add_sum_erase univ (fun i => g (f i)) (mem_univ a)
  simp only [update_self] at hnew
  omega

/-- Changing one cell moves one reference. -/
theorem rowRefs_update [DecidableEq ι] (row : ι → Option κ) (i : ι) (v : Option κ) (x : κ) :
    rowRefs (update row i v) x + pointsTo (row i) x = rowRefs row x + pointsTo v x :=
  sum_update_add (pointsTo · x) row i v

/-- The change of a whole row. -/
theorem slotRefs_row [DecidableEq π] (slot : π → ι → Option κ) (p : π) (row : ι → Option κ) (x : κ) :
    slotRefs (update slot p row) x + rowRefs (slot p) x = slotRefs slot x + rowRefs row x :=
  sum_update_add (rowRefs · x) slot p row

/-- The change of one slot. -/
theorem slotRefs_slot [DecidableEq π] [DecidableEq ι] (slot : π → ι → Option κ) (p : π) (i : ι) (v : Option κ) (x : κ) :
    slotRefs (update slot p (update (slot p) i v)) x + pointsTo (slot p i) x =
      slotRefs slot x + pointsTo v x := by
  have hrow := slotRefs_row slot p (update (slot p) i v) x
  have hslot := rowRefs_update (slot p) i v x
  omega

/-- A row without references. -/
theorem rowRefs_eq_zero_iff {row : ι → Option κ} {x : κ} :
    rowRefs row x = 0 ↔ ∀ i, row i ≠ some x := by
  simp [rowRefs, pointsTo]

/-- Slots without references. -/
theorem slotRefs_eq_zero_iff {slot : π → ι → Option κ} {x : κ} :
    slotRefs slot x = 0 ↔ ∀ p i, slot p i ≠ some x := by
  simp [slotRefs, rowRefs_eq_zero_iff]

/-- A cell that holds a reference counts. -/
theorem slotRefs_pos {slot : π → ι → Option κ} {p : π} {i : ι} {x : κ} (h : slot p i = some x) :
    0 < slotRefs slot x := by
  rw [Nat.pos_iff_ne_zero]
  exact fun hzero => slotRefs_eq_zero_iff.mp hzero p i h

/-- Only the slots that point to `x` matter. -/
theorem rowRefs_congr {row row' : ι → Option κ} {x : κ} (h : ∀ i, row' i = some x ↔ row i = some x) :
    rowRefs row' x = rowRefs row x := by
  unfold rowRefs pointsTo
  exact Finset.sum_congr rfl fun i _ => by simp only [h i]

-- The sums are large: what uses them goes through the rules above.
attribute [irreducible] rowRefs slotRefs
