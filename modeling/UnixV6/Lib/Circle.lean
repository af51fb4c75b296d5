import Mathlib

/-!
# Round robin in a circle of slots

The slots `Fin n` stand in a circle. `ahead p q` says how many steps a pointer at `p` needs to come
to `q`, at least one, so that `p` itself comes last. A server that always goes on to the next member
of a set serves each member once before it serves any member again.
-/

namespace Circle

variable {n : ℕ} {p q r x : Fin n} {j : ℕ}

/-- The slot `j` steps on from `p`. -/
def advance (p : Fin n) (j : ℕ) : Fin n := ⟨(p + j) % n, Nat.mod_lt _ p.pos⟩

/-- The number of steps from `p` to `q`, from 1 up to `n`. -/
def ahead (p q : Fin n) : ℕ := if p < q then q - p else q + n - p

theorem one_le_ahead (p q : Fin n) : 1 ≤ ahead p q := by
  have hp := p.isLt
  unfold ahead
  split_ifs with h
  · have hlt : p.val < q.val := h
    omega
  · omega

theorem ahead_le (p q : Fin n) : ahead p q ≤ n := by
  have hq := q.isLt
  unfold ahead
  split_ifs with h
  · omega
  · have hle : q.val ≤ p.val := not_lt.mp h
    omega

theorem ahead_injective (p : Fin n) : Function.Injective (ahead p) := by
  intro q r hqr
  have hq := q.isLt
  have hr := r.isLt
  ext
  unfold ahead at hqr
  simp only [Fin.lt_def] at hqr
  split_ifs at hqr <;> omega

@[simp]
theorem advance_zero (p : Fin n) : advance p 0 = p := by
  ext
  simp [advance, Nat.mod_eq_of_lt p.isLt]

/-- The slot that is `j` steps on is `j` steps ahead. -/
theorem ahead_advance (hj : 1 ≤ j) (hn : j ≤ n) : ahead p (advance p j) = j := by
  have hp := p.isLt
  have hval : (advance p j).val = if p.val + j < n then p.val + j else p.val + j - n := by
    split_ifs with h
    · exact Nat.mod_eq_of_lt h
    · change (p.val + j) % n = _
      rw [Nat.mod_eq_sub_mod (by omega), Nat.mod_eq_of_lt (by omega)]
  unfold ahead
  simp only [Fin.lt_def, hval]
  split_ifs <;> omega

theorem advance_ahead (p q : Fin n) : advance p (ahead p q) = q :=
  ahead_injective p (ahead_advance (one_le_ahead p q) (ahead_le p q))

theorem eq_advance_iff (hj : 1 ≤ j) (hn : j ≤ n) : q = advance p j ↔ ahead p q = j := by
  constructor
  · rintro rfl
    exact ahead_advance hj hn
  · rintro rfl
    exact (advance_ahead p q).symm

/-- One step more comes to one slot more. -/
theorem ahead_le_succ_iff (hn : j < n) :
    ahead p q ≤ j + 1 ↔ ahead p q ≤ j ∨ q = advance p (j + 1) := by
  rw [eq_advance_iff (Nat.le_add_left 1 j) hn]
  omega

/-- The full circle leads back. -/
theorem advance_card (p : Fin n) : advance p n = p := by
  ext
  simp [advance, Nat.mod_eq_of_lt p.isLt]

/-- What `q` has before it, seen from a `q` that `p` comes to first. -/
theorem ahead_of_lt (h : ahead p q < ahead p r) : ahead q r + ahead p q = ahead p r := by
  have hp := p.isLt
  have hq := q.isLt
  have hr := r.isLt
  unfold ahead at h ⊢
  simp only [Fin.lt_def] at h ⊢
  split_ifs at h ⊢ <;> omega

/-- What `p` has come to before `q` is behind the end of the circle. -/
theorem ahead_of_le (h : ahead p r ≤ ahead p q) : ahead q r + ahead p q = ahead p r + n := by
  have hp := p.isLt
  have hq := q.isLt
  have hr := r.isLt
  unfold ahead at h ⊢
  simp only [Fin.lt_def] at h ⊢
  split_ifs at h ⊢ <;> omega

/-! ## Serving the members of a set in turn -/

variable {S : Finset (Fin n)} {l : List (Fin n)}

/-- `q` is the first member of `S` that a pointer at `p` comes to. -/
def IsNext (S : Finset (Fin n)) (p q : Fin n) : Prop := q ∈ S ∧ ∀ r ∈ S, ahead p q ≤ ahead p r

/-- The members of `S` up to `x` have been served, in the order in which `p` comes to them. -/
structure Served (S : Finset (Fin n)) (p : Fin n) (l : List (Fin n)) (x : Fin n) : Prop where
  sorted : l.Pairwise fun q r => ahead p q < ahead p r
  le_last : ∀ q ∈ l, ahead p q ≤ ahead p x
  mem : ∀ q ∈ l, q ∈ S
  upTo : ∀ q ∈ S, ahead p q ≤ ahead p x → q ∈ l

theorem Served.nodup (h : Served S p l x) : l.Nodup :=
  h.sorted.imp fun hlt heq => hlt.ne (congrArg _ heq)

/-- The first member that is served. -/
theorem IsNext.served (h : IsNext S p q) : Served S p [q] q where
  sorted := List.pairwise_singleton ..
  le_last r hr := by rw [List.mem_singleton.mp hr]
  mem r hr := by
    rw [List.mem_singleton.mp hr]
    exact h.1
  upTo r hr hle := List.mem_singleton.mpr (ahead_injective p (hle.antisymm (h.2 r hr)))

/-- As long as a member waits, the next one served is the next one from `p` too. -/
theorem Served.next (h : Served S p l x) (hwait : ∃ s ∈ S, s ∉ l) (hq : IsNext S x q) :
    Served S p (l ++ [q]) q := by
  obtain ⟨s, hs, hsl⟩ := hwait
  have hxs : ahead p x < ahead p s := lt_of_not_ge fun hle => hsl (h.upTo s hs hle)
  -- from `x` on, `s` comes before everything up to `x`
  have hxq : ahead p x < ahead p q := by
    by_contra hle
    have hfar := ahead_of_le (not_lt.mp hle)
    have hnear := ahead_of_lt hxs
    have hfirst := hq.2 s hs
    have := ahead_le p s
    have := one_le_ahead p q
    omega
  refine ⟨?_, ?_, ?_, ?_⟩
  · refine List.pairwise_append.mpr ⟨h.sorted, List.pairwise_singleton .., fun r hr t ht => ?_⟩
    rw [List.mem_singleton.mp ht]
    exact (h.le_last r hr).trans_lt hxq
  · intro r hr
    rcases List.mem_append.mp hr with hr | hr
    · exact (h.le_last r hr).trans hxq.le
    · rw [List.mem_singleton.mp hr]
  · intro r hr
    rcases List.mem_append.mp hr with hr | hr
    · exact h.mem r hr
    · rw [List.mem_singleton.mp hr]
      exact hq.1
  · intro r hr hle
    rw [List.mem_append, List.mem_singleton]
    rcases le_or_gt (ahead p r) (ahead p x) with hrx | hrx
    · exact Or.inl (h.upTo r hr hrx)
    · have hfirst := hq.2 r hr
      rw [← Nat.add_le_add_iff_right (n := ahead p x), ahead_of_lt hxq, ahead_of_lt hrx] at hfirst
      exact Or.inr (ahead_injective p (hle.antisymm hfirst))

/-- A member still waits while fewer have been served than there are. -/
theorem Served.exists_waiting (h : Served S p l x) (hl : l.length < S.card) : ∃ s ∈ S, s ∉ l := by
  by_contra hnone
  push Not at hnone
  have hsub : S ⊆ l.toFinset := fun s hs => List.mem_toFinset.mpr (hnone s hs)
  have hcard := Finset.card_le_card hsub
  rw [List.toFinset_card_of_nodup h.nodup] at hcard
  omega

/-- A whole run of the server. -/
theorem served_of_isChain {m : List (Fin n)} (h : Served S p l x)
    (hm : (x :: m).IsChain (IsNext S)) (hlen : (l ++ m).length ≤ S.card) :
    ∃ y, Served S p (l ++ m) y := by
  induction m generalizing l x with
  | nil => exact ⟨x, by rwa [List.append_nil]⟩
  | cons q m ih =>
    obtain ⟨hq, hm⟩ := List.isChain_cons_cons.mp hm
    have hlt : l.length < S.card := by
      simp only [List.length_append, List.length_cons] at hlen
      omega
    have hnext := h.next (h.exists_waiting hlt) hq
    rw [List.append_cons]
    exact ih hnext hm (by simpa using hlen)

/-- Round robin: as many turns as the set has members serve each member exactly once. -/
theorem serves_each (h : (p :: l).IsChain (IsNext S)) (hlen : l.length = S.card) :
    l.Nodup ∧ ∀ q, q ∈ l ↔ q ∈ S := by
  cases l with
  | nil =>
    have hS : S = ∅ := Finset.card_eq_zero.mp hlen.symm
    simp [hS]
  | cons q l =>
    obtain ⟨hq, hl⟩ := List.isChain_cons_cons.mp h
    obtain ⟨y, hy⟩ := served_of_isChain hq.served hl (by simpa using hlen.le)
    have hnodup : (q :: l).Nodup := hy.nodup
    refine ⟨hnodup, fun r => ⟨hy.mem r, fun hr => ?_⟩⟩
    have heq : (q :: l).toFinset = S := by
      apply Finset.eq_of_subset_of_card_le
      · intro s hs
        exact hy.mem s (List.mem_toFinset.mp hs)
      · rw [List.toFinset_card_of_nodup hnodup]
        exact hlen.ge
    exact List.mem_toFinset.mp (heq ▸ hr)

end Circle
