import Mathlib

/-!
# Tables of slots

A finite map in a row of slots, each of them free or with a key and a value. What is inserted goes
into the first free slot, or into one more at the end; what is erased leaves its slot free.
-/

open Function

/-- A row of slots. What `slot` has from `size` on does not count. -/
structure Slots (κ α : Type*) where
  size : ℕ
  slot : ℕ → Option (κ × α)

namespace Slots

variable {κ α : Type*} {t : Slots κ α} {i : ℕ} {k : κ} {v : α}

/-- A slot is written; the row may be extended by one. -/
def put (t : Slots κ α) (i : ℕ) (x : Option (κ × α)) : Slots κ α :=
  ⟨max t.size (i + 1), update t.slot i x⟩

/-- The first free slot, or the end. -/
def firstFree (t : Slots κ α) : ℕ :=
  ((List.range t.size).find? fun i => (t.slot i).isNone).getD t.size

/-- There is a slot with the key and the value. -/
def Holds (t : Slots κ α) (x : κ × α) : Prop := ∃ i < t.size, t.slot i = some x

/-- No key is in two slots. -/
def Distinct (t : Slots κ α) : Prop :=
  ∀ i j k v w, i < t.size → j < t.size → t.slot i = some (k, v) → t.slot j = some (k, w) → i = j

theorem firstFree_le (t : Slots κ α) : t.firstFree ≤ t.size := by
  unfold firstFree
  cases hfind : (List.range t.size).find? fun i => (t.slot i).isNone with
  | none => exact le_rfl
  | some i =>
    obtain ⟨-, hmem, -⟩ := List.find?_range_eq_some.mp hfind
    exact (List.mem_range.mp hmem).le

theorem slot_firstFree (h : t.firstFree < t.size) : t.slot t.firstFree = none := by
  unfold firstFree at h ⊢
  cases hfind : (List.range t.size).find? fun i => (t.slot i).isNone with
  | none =>
    rw [hfind] at h
    exact absurd h (lt_irrefl t.size)
  | some i =>
    obtain ⟨hnone, -, -⟩ := List.find?_range_eq_some.mp hfind
    exact Option.isNone_iff_eq_none.mp hnone

theorem slot_ne_none (h : i < t.firstFree) : t.slot i ≠ none := by
  intro hnone
  unfold firstFree at h
  cases hfind : (List.range t.size).find? fun i => (t.slot i).isNone with
  | none =>
    rw [hfind] at h
    have hsome := List.find?_range_eq_none.mp hfind i h
    simp [hnone] at hsome
  | some j =>
    rw [hfind] at h
    have hsome := (List.find?_range_eq_some.mp hfind).2.2 i h
    simp [hnone] at hsome

/-- The slot that was put. -/
@[simp]
theorem slot_put_self (t : Slots κ α) (i : ℕ) (x : Option (κ × α)) : (t.put i x).slot i = x :=
  update_self ..

/-- The other slots stay. -/
theorem slot_put_of_ne {j : ℕ} (h : j ≠ i) (x : Option (κ × α)) :
    (t.put i x).slot j = t.slot j := update_of_ne h ..

/-- What is held after a slot has been written. -/
theorem holds_put (hi : i ≤ t.size) (y : Option (κ × α)) (x : κ × α) :
    (t.put i y).Holds x ↔ y = some x ∨ ∃ j < t.size, j ≠ i ∧ t.slot j = some x := by
  constructor
  · rintro ⟨j, hj, hslot⟩
    rcases eq_or_ne j i with rfl | hne
    · exact .inl (by rwa [slot_put_self] at hslot)
    · rw [slot_put_of_ne hne] at hslot
      refine .inr ⟨j, ?_, hne, hslot⟩
      change j < max t.size (i + 1) at hj
      omega
  · rintro (rfl | ⟨j, hj, hne, hslot⟩)
    · exact ⟨i, lt_max_of_lt_right (Nat.lt_succ_self i), slot_put_self ..⟩
    · exact ⟨j, lt_max_of_lt_left hj, (slot_put_of_ne hne _).trans hslot⟩

/-- Writing a key that is in no other slot keeps the keys apart. -/
theorem Distinct.put (h : t.Distinct) (hi : i ≤ t.size) {y : Option (κ × α)}
    (hy : ∀ k v w, y = some (k, v) → ∀ j < t.size, t.slot j = some (k, w) → j = i) :
    (t.put i y).Distinct := by
  intro j j' k v w hj hj' hslot hslot'
  change j < max t.size (i + 1) at hj
  change j' < max t.size (i + 1) at hj'
  by_cases hji : j = i
  · by_cases hji' : j' = i
    · rw [hji, hji']
    · rw [hji, slot_put_self] at hslot
      rw [slot_put_of_ne hji'] at hslot'
      exact absurd (hy k v w hslot j' (by omega) hslot') hji'
  · rw [slot_put_of_ne hji] at hslot
    by_cases hji' : j' = i
    · rw [hji', slot_put_self] at hslot'
      exact absurd (hy k w v hslot' j (by omega) hslot) hji
    · rw [slot_put_of_ne hji'] at hslot'
      exact h j j' k v w (by omega) (by omega) hslot hslot'

theorem Distinct.erase (h : t.Distinct) (hi : i ≤ t.size) : (t.put i none).Distinct :=
  h.put hi fun _ _ _ heq => nomatch heq

variable [DecidableEq κ]

/-- The first slot with a key. -/
def index (t : Slots κ α) (k : κ) : Option ℕ :=
  (List.range t.size).find? fun i => (t.slot i).any (·.1 = k)

/-- The value of a key. -/
def lookup (t : Slots κ α) (k : κ) : Option α :=
  (t.index k).bind fun i => (t.slot i).map Prod.snd

/-- The index of a key is that of its slot. -/
theorem index_eq_some (h : t.index k = some i) : i < t.size ∧ ∃ v, t.slot i = some (k, v) := by
  obtain ⟨hany, hmem, -⟩ := List.find?_range_eq_some.mp h
  obtain ⟨x, hslot, hkey⟩ := (Option.any_eq_true _ _).mp hany
  refine ⟨List.mem_range.mp hmem, x.2, ?_⟩
  rw [hslot, ← of_decide_eq_true hkey]

theorem index_eq_none (h : t.index k = none) (v : α) : ¬ t.Holds (k, v) := by
  rintro ⟨i, hi, hslot⟩
  have hno := List.find?_range_eq_none.mp h i hi
  simp [hslot] at hno

theorem lookup_eq_some (h : t.Distinct) : t.lookup k = some v ↔ t.Holds (k, v) := by
  cases hindex : t.index k with
  | none =>
    have hno := index_eq_none hindex v
    simp [lookup, hindex, hno]
  | some i =>
    obtain ⟨hi, w, hslot⟩ := index_eq_some hindex
    have hlookup : t.lookup k = some w := by
      rw [lookup, hindex, Option.bind_some, hslot]
      rfl
    rw [hlookup]
    constructor
    · rintro ⟨⟩
      exact ⟨i, hi, hslot⟩
    · rintro ⟨j, hj, hslot'⟩
      obtain rfl := h i j k w v hi hj hslot hslot'
      rw [hslot] at hslot'
      cases hslot'
      rfl

theorem lookup_eq_none (h : t.Distinct) : t.lookup k = none ↔ ∀ v, ¬ t.Holds (k, v) := by
  rw [Option.eq_none_iff_forall_ne_some]
  exact forall_congr' fun v => not_congr (lookup_eq_some h)

/-! ## Insertion and erasure -/

/-- A new key is put into the first free slot. -/
theorem Distinct.insert (h : t.Distinct) (hk : t.lookup k = none) (v : α) :
    (t.put t.firstFree (some (k, v))).Distinct := by
  refine h.put t.firstFree_le fun k' v' w heq j hj hslot => ?_
  obtain ⟨rfl, -⟩ : k = k' ∧ v = v' := by simpa using heq
  exact absurd ⟨j, hj, hslot⟩ ((lookup_eq_none h).mp hk w)

/-- An insertion changes what one key has. -/
theorem lookup_insert (h : t.Distinct) (hk : t.lookup k = none) (v : α) :
    (t.put t.firstFree (some (k, v))).lookup = update t.lookup k (some v) := by
  funext k'
  apply Option.ext
  intro w
  rw [lookup_eq_some (h.insert hk v), holds_put t.firstFree_le]
  -- the key itself, or another one
  rcases eq_or_ne k' k with rfl | hne
  · rw [update_self]
    constructor
    · rintro (heq | ⟨j, hj, -, hslot⟩)
      · simpa using heq
      · exact absurd ⟨j, hj, hslot⟩ ((lookup_eq_none h).mp hk w)
    · rintro ⟨⟩
      exact .inl rfl
  · rw [update_of_ne hne, lookup_eq_some h]
    constructor
    · rintro (heq | ⟨j, hj, -, hslot⟩)
      · exact absurd (congrArg Prod.fst (Option.some.inj heq)).symm hne
      · exact ⟨j, hj, hslot⟩
    · rintro ⟨j, hj, hslot⟩
      refine .inr ⟨j, hj, ?_, hslot⟩
      rintro rfl
      rw [slot_firstFree hj] at hslot
      cases hslot

/-- An erasure takes what one key has. -/
theorem lookup_erase (h : t.Distinct) (hi : t.index k = some i) :
    (t.put i none).lookup = update t.lookup k none := by
  obtain ⟨hlt, v, hslot⟩ := index_eq_some hi
  funext k'
  apply Option.ext
  intro w
  rw [lookup_eq_some (h.erase hlt.le), holds_put hlt.le]
  simp only [reduceCtorEq, false_or]
  rcases eq_or_ne k' k with rfl | hne
  · rw [update_self]
    refine ⟨fun ⟨j, hj, hji, hslot'⟩ => ?_, fun heq => nomatch heq⟩
    exact absurd (h j i k' w v hj hlt hslot' hslot) hji
  · rw [update_of_ne hne, lookup_eq_some h]
    refine ⟨fun ⟨j, hj, _, hslot'⟩ => ⟨j, hj, hslot'⟩, fun ⟨j, hj, hslot'⟩ => ⟨j, hj, ?_, hslot'⟩⟩
    rintro rfl
    rw [hslot] at hslot'
    exact hne (congrArg Prod.fst (Option.some.inj hslot')).symm

end Slots
