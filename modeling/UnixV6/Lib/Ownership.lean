import Mathlib

/-!
# Exclusive ownership of a set of resources

`Ownership own free total` says that the sets `own i` of the owners and the set `free` divide
`total` among themselves: no two overlap and nothing is lost. The rules below are the three things
an allocator's clients do with it: take something from `free`, give it back, and hand it on to
another owner. Each is stated for any ownership after the step that agrees with the one before it
away from the owners involved.
-/

open Function

/-- The owners' sets and `free` are pairwise disjoint and make up `total`. -/
structure Ownership {ι α : Type*} (own : ι → Set α) (free total : Set α) : Prop where
  /-- No two owners share a resource. -/
  disjoint : Pairwise (Disjoint on own)
  /-- Nothing owned is free. -/
  disjoint_free : ∀ i, Disjoint (own i) free
  /-- Nothing is lost, and nothing else is owned. -/
  cover : (⋃ i, own i) ∪ free = total

namespace Ownership

variable {ι α : Type*} {own own' : ι → Set α} {free total : Set α}

/-- Every resource is free or has an owner, and not both. -/
theorem mem_total_iff (h : Ownership own free total) {x : α} :
    x ∈ total ↔ (∃ i, x ∈ own i) ∨ x ∈ free := by
  rw [← h.cover, Set.mem_union, Set.mem_iUnion]

theorem own_subset (h : Ownership own free total) (i : ι) : own i ⊆ total :=
  fun _ hx => h.mem_total_iff.mpr (Or.inl ⟨i, hx⟩)

/-- A resource has at most one owner. -/
theorem eq_of_mem (h : Ownership own free total) {i j : ι} {x : α} (hi : x ∈ own i)
    (hj : x ∈ own j) : i = j := by
  by_contra hne
  exact Set.disjoint_left.mp (h.disjoint hne) hi hj

/-- What is owned is not free. -/
theorem not_free_of_mem (h : Ownership own free total) {i : ι} {x : α} (hi : x ∈ own i) :
    x ∉ free :=
  Set.disjoint_left.mp (h.disjoint_free i) hi

/-- The pointwise form. -/
theorem of_mem (huniq : ∀ i j x, x ∈ own i → x ∈ own j → i = j)
    (hfree : ∀ i x, x ∈ own i → x ∉ free)
    (hcover : ∀ x, x ∈ total ↔ (∃ i, x ∈ own i) ∨ x ∈ free) : Ownership own free total where
  disjoint i j hne := Set.disjoint_left.mpr fun x hi hj => hne (huniq i j x hi hj)
  disjoint_free i := Set.disjoint_left.mpr fun x hx => hfree i x hx
  cover := by
    ext x
    rw [hcover, Set.mem_union, Set.mem_iUnion]

/-- With no owner at all everything is free. -/
theorem of_empty (hown : ∀ i, own i = ∅) : Ownership own free free :=
  of_mem (fun i j x hi => by simp [hown] at hi) (fun i x hi => by simp [hown] at hi)
    (fun x => by simp [hown])

/-- Ownership that has not changed. -/
theorem congr (h : Ownership own free total) (hown : ∀ i, own' i = own i) :
    Ownership own' free total := by
  rwa [show own' = own from funext hown]

/-- Owner `i`, which had nothing, takes the free resources `r`. -/
theorem alloc (h : Ownership own free total) {i : ι} {r : Set α} (hr : r ⊆ free) (hi : own i = ∅)
    (hi' : own' i = r) (hother : ∀ k, k ≠ i → own' k = own k) :
    Ownership own' (free \ r) total := by
  have hold : ∀ {k x}, x ∈ own' k → k ≠ i → x ∈ own k := fun hx hk => hother _ hk ▸ hx
  have hnew : ∀ {x}, x ∈ own' i → x ∈ r := fun hx => hi' ▸ hx
  -- no resource has two owners, none is free too, and none is lost
  refine of_mem (fun j k x hj hk => ?_) (fun k x hk hx => ?_) (fun x => ?_)
  · by_cases hji : j = i
    · by_cases hki : k = i
      · rw [hji, hki]
      · subst hji
        exact absurd (hr (hnew hj)) (h.not_free_of_mem (hold hk hki))
    · by_cases hki : k = i
      · subst hki
        exact absurd (hr (hnew hk)) (h.not_free_of_mem (hold hj hji))
      · exact h.eq_of_mem (hold hj hji) (hold hk hki)
  · by_cases hki : k = i
    · subst hki
      exact hx.2 (hnew hk)
    · exact h.not_free_of_mem (hold hk hki) hx.1
  · rw [h.mem_total_iff]
    constructor
    · rintro (⟨k, hk⟩ | hx)
      · have hki : k ≠ i := by
          rintro rfl
          simp [hi] at hk
        exact Or.inl ⟨k, hother k hki ▸ hk⟩
      · by_cases hxr : x ∈ r
        · exact Or.inl ⟨i, hi' ▸ hxr⟩
        · exact Or.inr ⟨hx, hxr⟩
    · rintro (⟨k, hk⟩ | hx)
      · by_cases hki : k = i
        · subst hki
          exact Or.inr (hr (hnew hk))
        · exact Or.inl ⟨k, hold hk hki⟩
      · exact Or.inr hx.1

/-- Owner `i` gives back all it has. -/
theorem release (h : Ownership own free total) {i : ι} (hi' : own' i = ∅)
    (hother : ∀ k, k ≠ i → own' k = own k) : Ownership own' (free ∪ own i) total := by
  have hold : ∀ {k x}, x ∈ own' k → x ∈ own k ∧ k ≠ i := by
    intro k x hx
    have hki : k ≠ i := by
      rintro rfl
      simp [hi'] at hx
    exact ⟨hother k hki ▸ hx, hki⟩
  -- no resource has two owners, none is free too, and none is lost
  refine of_mem (fun j k x hj hk => h.eq_of_mem (hold hj).1 (hold hk).1)
    (fun k x hk hx => ?_) (fun x => ?_)
  · obtain ⟨hk, hki⟩ := hold hk
    rcases hx with hx | hx
    · exact h.not_free_of_mem hk hx
    · exact hki (h.eq_of_mem hk hx)
  · rw [h.mem_total_iff]
    constructor
    · rintro (⟨k, hk⟩ | hx)
      · by_cases hki : k = i
        · subst hki
          exact Or.inr (Or.inr hk)
        · exact Or.inl ⟨k, hother k hki ▸ hk⟩
      · exact Or.inr (Or.inl hx)
    · rintro (⟨k, hk⟩ | hx | hx)
      · exact Or.inl ⟨k, (hold hk).1⟩
      · exact Or.inr hx
      · exact Or.inl ⟨i, hx⟩

/-- Owner `i` takes the free resources `r` besides what it has. -/
theorem take (h : Ownership own free total) {i : ι} {r : Set α} (hr : r ⊆ free)
    (hi' : own' i = own i ∪ r) (hother : ∀ k, k ≠ i → own' k = own k) :
    Ownership own' (free \ r) total := by
  -- what an owner has after the step it had before, or it is in `r`
  have hold : ∀ {k x}, x ∈ own' k → x ∈ own k ∨ k = i ∧ x ∈ r := by
    intro k x hx
    by_cases hki : k = i
    · subst hki
      rw [hi'] at hx
      exact hx.imp_right fun hx => ⟨rfl, hx⟩
    · exact Or.inl (hother k hki ▸ hx)
  refine of_mem (fun j k x hj hk => ?_) (fun k x hk hx => ?_) (fun x => ?_)
  · rcases hold hj with hj | ⟨rfl, hj⟩ <;> rcases hold hk with hk | ⟨rfl, hk⟩
    · exact h.eq_of_mem hj hk
    · exact absurd (hr hk) (h.not_free_of_mem hj)
    · exact absurd (hr hj) (h.not_free_of_mem hk)
    · rfl
  · rcases hold hk with hk | ⟨-, hk⟩
    · exact h.not_free_of_mem hk hx.1
    · exact hx.2 hk
  · rw [h.mem_total_iff]
    constructor
    · rintro (⟨k, hk⟩ | hx)
      · by_cases hki : k = i
        · subst hki
          exact Or.inl ⟨k, hi' ▸ Or.inl hk⟩
        · exact Or.inl ⟨k, hother k hki ▸ hk⟩
      · by_cases hxr : x ∈ r
        · exact Or.inl ⟨i, hi' ▸ Or.inr hxr⟩
        · exact Or.inr ⟨hx, hxr⟩
    · rintro (⟨k, hk⟩ | hx)
      · rcases hold hk with hk | ⟨-, hk⟩
        · exact Or.inl ⟨k, hk⟩
        · exact Or.inr (hr hk)
      · exact Or.inr hx.1

/-- Owner `i` gives back `r` and keeps the rest. -/
theorem give (h : Ownership own free total) {i : ι} {r : Set α} (hr : r ⊆ own i)
    (hi' : own' i = own i \ r) (hother : ∀ k, k ≠ i → own' k = own k) :
    Ownership own' (free ∪ r) total := by
  have hold : ∀ {k x}, x ∈ own' k → x ∈ own k ∧ x ∉ r := by
    intro k x hx
    by_cases hki : k = i
    · subst hki
      rwa [hi'] at hx
    · rw [hother k hki] at hx
      exact ⟨hx, fun hxr => hki (h.eq_of_mem hx (hr hxr))⟩
  -- no resource has two owners, none is free too, and none is lost
  refine of_mem (fun j k x hj hk => h.eq_of_mem (hold hj).1 (hold hk).1)
    (fun k x hk hx => ?_) (fun x => ?_)
  · rcases hx with hx | hx
    · exact h.not_free_of_mem (hold hk).1 hx
    · exact (hold hk).2 hx
  · rw [h.mem_total_iff]
    constructor
    · rintro (⟨k, hk⟩ | hx)
      · by_cases hki : k = i
        · subst hki
          by_cases hxr : x ∈ r
          · exact Or.inr (Or.inr hxr)
          · exact Or.inl ⟨k, hi' ▸ ⟨hk, hxr⟩⟩
        · exact Or.inl ⟨k, hother k hki ▸ hk⟩
      · exact Or.inr (Or.inl hx)
    · rintro (⟨k, hk⟩ | hx | hx)
      · exact Or.inl ⟨k, (hold hk).1⟩
      · exact Or.inr hx
      · exact Or.inl ⟨i, hr hx⟩

/-- Owner `i` hands all it has to owner `j`, which had nothing. -/
theorem transfer (h : Ownership own free total) {i j : ι} (hij : i ≠ j) (hj : own j = ∅)
    (hi' : own' i = ∅) (hj' : own' j = own i) (hother : ∀ k, k ≠ i → k ≠ j → own' k = own k) :
    Ownership own' free total := by
  -- the owner before the step of what `k` owns after it
  have hold : ∀ {k x}, x ∈ own' k → (k = j ∧ x ∈ own i) ∨ (k ≠ i ∧ k ≠ j ∧ x ∈ own k) := by
    intro k x hx
    by_cases hki : k = i
    · subst hki
      simp [hi'] at hx
    · by_cases hkj : k = j
      · subst hkj
        exact Or.inl ⟨rfl, hj' ▸ hx⟩
      · exact Or.inr ⟨hki, hkj, hother k hki hkj ▸ hx⟩
  refine of_mem (fun k l x hk hl => ?_) (fun k x hk => ?_) (fun x => ?_)
  · rcases hold hk with ⟨rfl, hk⟩ | ⟨hki, hkj, hk⟩ <;>
      rcases hold hl with ⟨rfl, hl⟩ | ⟨hli, hlj, hl⟩
    · rfl
    · exact absurd (h.eq_of_mem hl hk) hli
    · exact absurd (h.eq_of_mem hk hl) hki
    · exact h.eq_of_mem hk hl
  · rcases hold hk with ⟨-, hk⟩ | ⟨-, -, hk⟩ <;> exact h.not_free_of_mem hk
  · rw [h.mem_total_iff]
    constructor
    · rintro (⟨k, hk⟩ | hx)
      · by_cases hki : k = i
        · subst hki
          exact Or.inl ⟨j, hj' ▸ hk⟩
        · have hkj : k ≠ j := by
            rintro rfl
            simp [hj] at hk
          exact Or.inl ⟨k, hother k hki hkj ▸ hk⟩
      · exact Or.inr hx
    · rintro (⟨k, hk⟩ | hx)
      · rcases hold hk with ⟨-, hk⟩ | ⟨-, -, hk⟩ <;> exact Or.inl ⟨_, hk⟩
      · exact Or.inr hx

/-- Owner `i` hands `r` to owner `j`, and both keep what else they have. -/
theorem hand (h : Ownership own free total) {i j : ι} {r : Set α} (hij : i ≠ j) (hr : r ⊆ own i)
    (hi' : own' i = own i \ r) (hj' : own' j = own j ∪ r)
    (hother : ∀ k, k ≠ i → k ≠ j → own' k = own k) : Ownership own' free total := by
  classical
  -- in between, `r` is free
  have hgiven : Ownership (update own i (own i \ r)) (free ∪ r) total :=
    h.give hr (update_self i _ own) fun k hk => update_of_ne hk _ own
  have htaken : Ownership own' ((free ∪ r) \ r) total := by
    refine hgiven.take (i := j) Set.subset_union_right ?_ fun k hk => ?_
    · rw [update_of_ne hij.symm]
      exact hj'
    · by_cases hki : k = i
      · rw [hki, update_self]
        exact hi'
      · rw [update_of_ne hki]
        exact hother k hki hk
  have hdisjoint : free ∩ r ⊆ ∅ := fun x hx => h.not_free_of_mem (hr hx.2) hx.1
  rwa [Set.union_sdiff_cancel_right hdisjoint] at htaken

end Ownership

/-! ## Owners of intervals

`owned R i` is what owner `i` has when `R i a n` says that it has the `n` numbers from `a` on. -/

section Owned

variable {ι : Type*} {R R' : ι → ℕ → ℕ → Prop} {i : ι}

/-- The numbers that belong to `i`. -/
def owned (R : ι → ℕ → ℕ → Prop) (i : ι) : Set ℕ :=
  {x | ∃ a n, R i a n ∧ x ∈ Set.Ico a (a + n)}

/-- An owner of one interval. -/
theorem owned_eq {a n : ℕ} (h : ∀ a' n', R i a' n' ↔ a' = a ∧ n' = n) :
    owned R i = Set.Ico a (a + n) := by
  ext x
  simp [owned, h]

theorem owned_empty (h : ∀ a n, ¬ R i a n) : owned R i = ∅ :=
  Set.eq_empty_of_forall_notMem fun _ ⟨a, n, hR, _⟩ => h a n hR

theorem owned_congr (h : ∀ a n, R' i a n ↔ R i a n) : owned R' i = owned R i := by
  ext x
  simp [owned, h]

end Owned
