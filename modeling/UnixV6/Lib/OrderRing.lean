import Mathlib

/-!
# Circular lists in the order of their nodes

Each node of a circular list is linked to the next larger one, and the largest to the smallest:
there is one wrap. From any node the links lead to every other one, and there is always a place for
a new node.
-/

open Function

variable {α : Type*} [LinearOrder α] {next next' : α → α} {S : Finset α} {p x y : α}

/-- The field `next` links the nodes of `S` in a circle, in increasing order with one wrap. -/
structure OrderRing (next : α → α) (S : Finset α) : Prop where
  next_mem : ∀ x ∈ S, next x ∈ S
  next_or_wrap : ∀ x ∈ S, (x < next x ∧ ∀ y ∈ S, x < y → next x ≤ y) ∨
    ∀ y ∈ S, y ≤ x ∧ next x ≤ y

/-- A new node `x` belongs between `p` and the node behind it. -/
def Between (next : α → α) (p x : α) : Prop :=
  p < x ∧ x < next p ∨ next p ≤ p ∧ (p < x ∨ x < next p)

namespace OrderRing

theorem singleton (h : next x = x) : OrderRing next {x} where
  next_mem y hy := by
    rw [Finset.mem_singleton.mp hy]
    exact Finset.mem_singleton.mpr h
  next_or_wrap y hy := by
    rw [Finset.mem_singleton.mp hy]
    refine Or.inr fun z hz => ?_
    rw [Finset.mem_singleton.mp hz]
    exact ⟨le_rfl, h.le⟩

/-- A ring depends on its own links only. -/
theorem congr (h : OrderRing next S) (hnext : ∀ x ∈ S, next' x = next x) : OrderRing next' S where
  next_mem x hx := by
    rw [hnext x hx]
    exact h.next_mem x hx
  next_or_wrap x hx := by
    rw [hnext x hx]
    exact h.next_or_wrap x hx

theorem iterate_mem (h : OrderRing next S) (hx : x ∈ S) (k : ℕ) : next^[k] x ∈ S := by
  induction k with
  | zero => exact hx
  | succ k ih =>
    rw [iterate_succ_apply']
    exact h.next_mem _ ih

/-- A larger node is reached without the wrap. -/
theorem exists_iterate_of_le (h : OrderRing next S) (hx : x ∈ S) (hy : y ∈ S) (hxy : x ≤ y) :
    ∃ k, next^[k] x = y := by
  induction hn : (S.filter fun z => x ≤ z ∧ z < y).card using Nat.strong_induction_on
    generalizing x with
  | h n ih =>
    rcases hxy.eq_or_lt with rfl | hlt
    · exact ⟨0, rfl⟩
    · rcases h.next_or_wrap x hx with ⟨hup, hleast⟩ | hwrap
      · -- what is between the next node and `y` is between `x` and `y`, and `x` is not any more
        have hless : (S.filter fun z => next x ≤ z ∧ z < y).card < n := by
          rw [← hn]
          apply Finset.card_lt_card
          rw [Finset.ssubset_iff_of_subset]
          · refine ⟨x, by simp [hx, hlt], ?_⟩
            simp [hup]
          · intro z hz
            rw [Finset.mem_filter] at hz ⊢
            exact ⟨hz.1, hup.le.trans hz.2.1, hz.2.2⟩
        obtain ⟨k, hk⟩ := ih _ hless (h.next_mem x hx) (hleast y hy hlt) rfl
        exact ⟨k + 1, by rw [iterate_succ_apply, hk]⟩
      · exact absurd (hwrap y hy).1 (not_le.mpr hlt)

/-- From any node the links lead to every node. -/
theorem exists_iterate (h : OrderRing next S) (hx : x ∈ S) (hy : y ∈ S) : ∃ k, next^[k] x = y := by
  obtain ⟨m, hm, hmax⟩ := S.exists_max_image id ⟨x, hx⟩
  obtain ⟨i, hi⟩ := h.exists_iterate_of_le hx hm (hmax x hx)
  have hmin : ∀ z ∈ S, next m ≤ z := by
    rcases h.next_or_wrap m hm with ⟨hup, -⟩ | hwrap
    · exact absurd (hmax _ (h.next_mem m hm)) (not_le.mpr hup)
    · exact fun z hz => (hwrap z hz).2
  obtain ⟨j, hj⟩ := h.exists_iterate_of_le (h.next_mem m hm) hy (hmin y hy)
  refine ⟨j + (i + 1), ?_⟩
  rw [iterate_add_apply, iterate_succ_apply', hi, hj]

/-- A place for a new node. -/
theorem exists_between (h : OrderRing next S) (hS : S.Nonempty) (hx : x ∉ S) :
    ∃ p ∈ S, Between next p x := by
  by_cases hlow : ∃ y ∈ S, y < x
  · obtain ⟨y, hy, hyx⟩ := hlow
    obtain ⟨p, hp, hmax⟩ := (S.filter (· < x)).exists_max_image id
      ⟨y, Finset.mem_filter.mpr ⟨hy, hyx⟩⟩
    obtain ⟨hpS, hpx⟩ := Finset.mem_filter.mp hp
    refine ⟨p, hpS, ?_⟩
    rcases h.next_or_wrap p hpS with ⟨hup, -⟩ | hwrap
    · refine Or.inl ⟨hpx, lt_of_le_of_ne (not_lt.mp fun hlt => ?_) ?_⟩
      · have hnext := hmax _ (Finset.mem_filter.mpr ⟨h.next_mem p hpS, hlt⟩)
        exact absurd hup (not_lt.mpr hnext)
      · rintro rfl
        exact hx (h.next_mem p hpS)
    · exact Or.inr ⟨(hwrap p hpS).2, Or.inl hpx⟩
  · -- every node is larger: the place is behind the largest one
    push Not at hlow
    obtain ⟨m, hm, hmax⟩ := S.exists_max_image id hS
    refine ⟨m, hm, Or.inr ⟨hmax _ (h.next_mem m hm), Or.inr ?_⟩⟩
    refine lt_of_le_of_ne (hlow _ (h.next_mem m hm)) ?_
    rintro rfl
    exact hx (h.next_mem m hm)

/-- A new node is linked in at its place. -/
theorem insert (h : OrderRing next S) (hp : p ∈ S) (hx : x ∉ S) (hbetween : Between next p x)
    (hnp : next' p = x) (hnx : next' x = next p) (hnext : ∀ y ∈ S, y ≠ p → next' y = next y) :
    OrderRing next' (insert x S) := by
  -- the successor of `p`
  have hmem := h.next_mem p hp
  constructor
  · -- every node has its successor in the ring
    intro y hy
    rcases Finset.mem_insert.mp hy with rfl | hy
    · rw [hnx]
      exact Finset.mem_insert_of_mem hmem
    · by_cases hyp : y = p
      · rw [hyp, hnp]
        exact Finset.mem_insert_self x S
      · rw [hnext y hy hyp]
        exact Finset.mem_insert_of_mem (h.next_mem y hy)
  · -- which is the next one in order, or the first one
    intro y hy
    have hpos := h.next_or_wrap p hp
    unfold Between at hbetween
    rcases Finset.mem_insert.mp hy with rfl | hy
    · rw [hnx]
      simp only [Finset.forall_mem_insert]
      -- the new node points where `p` did, and lies between
      grind
    · by_cases hyp : y = p
      · subst hyp
        rw [hnp]
        simp only [Finset.forall_mem_insert]
        grind
      · rw [hnext y hy hyp]
        -- the other nodes keep their successor
        have hold := h.next_or_wrap y hy
        simp only [Finset.forall_mem_insert]
        grind

/-- The node behind `x` is taken out. -/
theorem erase (h : OrderRing next S) (hx : x ∈ S) (hy : next x = y) (hne : y ≠ x)
    (hnx : next' x = next y) (hnext : ∀ z ∈ S, z ≠ x → z ≠ y → next' z = next z) :
    OrderRing next' (S.erase y) := by
  have hyS : y ∈ S := hy ▸ h.next_mem x hx
  have hxpos := h.next_or_wrap x hx
  have hypos := h.next_or_wrap y hyS
  rw [hy] at hxpos
  have hymem := h.next_mem y hyS
  constructor
  · intro z hz
    obtain ⟨hzy, hz⟩ := Finset.mem_erase.mp hz
    by_cases hzx : z = x
    · rw [hzx, hnx]
      refine Finset.mem_erase.mpr ⟨?_, hymem⟩
      grind
    · rw [hnext z hz hzx hzy]
      have hzpos := h.next_or_wrap z hz
      refine Finset.mem_erase.mpr ⟨?_, h.next_mem z hz⟩
      grind
  · intro z hz
    obtain ⟨hzy, hz⟩ := Finset.mem_erase.mp hz
    by_cases hzx : z = x
    · rw [hzx, hnx]
      simp only [Finset.mem_erase]
      grind
    · rw [hnext z hz hzx hzy]
      have hzpos := h.next_or_wrap z hz
      simp only [Finset.mem_erase]
      grind

end OrderRing
