import UnixV6.Ken.Malloc

/-!
# Runs of a resource map

`MapRun N base n mp live` says that the array `mp` of `N` entries is reached from the all-zero
array by one `mfree` of `[base, base + n)`, as `main` does for `coremap` and `swapmap`, followed by
any sequence of `malloc` calls and of `mfree` calls on ranges currently allocated; `live` are those
ranges. `MapRun.exactFirstFit` says that the map then records exactly the units not allocated, in
maximal runs, that `malloc` returns the lowest address that fits and 0 only if none does, and that
with `k` live allocations `k + 1` entries suffice.
-/

namespace UnixV6

/-- The states of a map of `N` entries after `main` gave it `n` units from `base`, with the ranges
handed out and not yet freed. -/
inductive MapRun (N base n : ℕ) : List Map → List Extent → Prop
  | boot {mp : List Map} :
      mfree (List.replicate N { m_size := 0, m_addr := 0 }) n base = some mp → MapRun N base n mp []
  | malloc {mp mp' : List Map} {live : List Extent} {s a : ℕ} :
      MapRun N base n mp live → 0 < s → s < 65536 → malloc mp s = some (a, mp') →
      MapRun N base n mp' (if a = 0 then live else ⟨a, s⟩ :: live)
  | mfree {mp mp' : List Map} {live : List Extent} {x : Extent} :
      MapRun N base n mp live → x ∈ live → mfree mp x.len x.base = some mp' →
      MapRun N base n mp' (live.erase x)

/-- The map is an exact first-fit allocator of `[base, base + n)`, of which `live` is allocated. -/
structure ExactFirstFit (N base n : ℕ) (mp : List Map) (live : List Extent) : Prop where
  /-- Addresses increase, and no entry touches the next. -/
  sorted : (entries mp).Pairwise fun e f => e.m_addr + e.m_size < f.m_addr
  /-- Every entry from the first zero `m_size` on has `m_size` zero. -/
  stale : ∀ e ∈ mp.drop (entries mp).length, e.m_size = 0
  /-- The entries before it are not empty. -/
  nonempty : ∀ e ∈ entries mp, 0 < e.m_size
  /-- The live allocations do not overlap. -/
  live_disjoint : live.Pairwise fun x y => Disjoint x.units y.units
  /-- The live allocations are non-empty parts of the initial range. -/
  live_subset : ∀ x ∈ live, 0 < x.len ∧ x.units ⊆ Set.Ico base (base + n)
  /-- Exactly the units not allocated are recorded as free. -/
  free : freeUnits mp = Set.Ico base (base + n) \ Extent.covered live
  /-- `malloc` returns 0 only if no run of `s` units is free. -/
  malloc_zero : ∀ s a mp', 0 < s → s < 65536 → malloc mp s = some (a, mp') →
    (a = 0 ↔ ∀ b, ¬ Set.Ico b (b + s) ⊆ freeUnits mp)
  /-- Otherwise it returns the lowest address of such a run. -/
  malloc_least : ∀ s a mp', 0 < s → s < 65536 → malloc mp s = some (a, mp') → a ≠ 0 →
    IsLeast {b | Set.Ico b (b + s) ⊆ freeUnits mp} a ∧
      ∀ x ∈ live, Disjoint x.units (Set.Ico a (a + s))
  /-- When everything has been freed the initial entry is back. -/
  restored : live = [] → entries mp = if n = 0 then [] else [{ m_size := n, m_addr := base }]
  /-- One entry more than there are live allocations is enough. -/
  few : (entries mp).length ≤ live.length + 1
  /-- While the array has room for that entry and a terminator, neither routine leaves it. -/
  inside : live.length + 2 ≤ N →
    (∀ s, malloc mp s ≠ none) ∧ ∀ x ∈ live, mfree mp x.len x.base ≠ none

/-- The invariant of `MapRun`. -/
private structure RunInv (N base n : ℕ) (mp : List Map) (live : List Extent) : Prop where
  ok : MapOk mp
  length : mp.length = N
  free : freeUnits mp = Set.Ico base (base + n) \ Extent.covered live
  live_disjoint : live.Pairwise fun x y => Disjoint x.units y.units
  live_subset : ∀ x ∈ live, 0 < x.len ∧ x.units ⊆ Set.Ico base (base + n)

private theorem RunInv.boot {N base n : ℕ} {mp : List Map} (hn : base + n < 65536)
    (h : mfree (List.replicate N { m_size := 0, m_addr := 0 }) n base = some mp) :
    RunInv N base n mp [] := by
  obtain ⟨hok, hlen, hfree⟩ := mfree_replicate hn h
  exact ⟨hok, hlen, by simp [hfree], List.Pairwise.nil, by simp⟩

private theorem RunInv.malloc {N base n : ℕ} {mp mp' : List Map} {live : List Extent} {s a : ℕ}
    (hbase : 0 < base) (h : RunInv N base n mp live) (hs : 0 < s)
    (hm : malloc mp s = some (a, mp')) :
    RunInv N base n mp' (if a = 0 then live else ⟨a, s⟩ :: live) := by
  obtain ⟨hok, hlen, ⟨rfl, rfl, -⟩ | ⟨⟨hsub, -⟩, hfree⟩⟩ := malloc_freeUnits h.ok hs hm
  · exact h
  · have hsub' : Set.Ico a (a + s) ⊆ Set.Ico base (base + n) \ Extent.covered live :=
      h.free ▸ hsub
    have ha : a ≠ 0 := by
      have := (hsub' (show a ∈ Set.Ico a (a + s) from ⟨le_rfl, by omega⟩)).1.1
      omega
    rw [if_neg ha]
    refine ⟨hok, hlen.trans h.length, ?_, ?_, ?_⟩
    · rw [hfree, h.free, Extent.covered_cons, Set.union_comm, Set.sdiff_sdiff]
      rfl
    · refine List.pairwise_cons.mpr ⟨fun x hx => ?_, h.live_disjoint⟩
      rw [Set.disjoint_left]
      exact fun y hy hyx => (hsub' hy).2 ⟨x, hx, hyx⟩
    · intro x hx
      rcases List.mem_cons.mp hx with rfl | hx
      · exact ⟨hs, fun y hy => (hsub' hy).1⟩
      · exact h.live_subset x hx

private theorem covered_erase {live : List Extent} {x : Extent}
    (hd : live.Pairwise fun x y => Disjoint x.units y.units) (hx : x ∈ live) :
    Extent.covered live = x.units ∪ Extent.covered (live.erase x) ∧
      Disjoint x.units (Extent.covered (live.erase x)) := by
  have hperm := List.perm_cons_erase hx
  have hd' := (hperm.pairwise_iff fun h => h.symm).mp hd
  refine ⟨?_, ?_⟩
  · rw [← Extent.covered_cons]
    ext y
    simp only [Extent.mem_covered, hperm.mem_iff]
  · rw [Set.disjoint_left]
    rintro y hy ⟨z, hz, hyz⟩
    exact Set.disjoint_left.mp ((List.pairwise_cons.mp hd').1 z hz) hy hyz

private theorem RunInv.mfree {N base n : ℕ} {mp mp' : List Map} {live : List Extent} {x : Extent}
    (hn : base + n < 65536) (h : RunInv N base n mp live) (hx : x ∈ live)
    (hm : mfree mp x.len x.base = some mp') : RunInv N base n mp' (live.erase x) := by
  obtain ⟨hpos, hsub⟩ := h.live_subset x hx
  obtain ⟨hcov, hdisj⟩ := covered_erase h.live_disjoint hx
  have hstop : x.base + x.len < 65536 := by
    have := (hsub (show x.base + x.len - 1 ∈ x.units from ⟨by omega, by
      simp only [Extent.stop]; omega⟩)).2
    omega
  obtain ⟨hok, hlen, hfree⟩ := mfree_freeUnits h.ok hpos hstop (by
    rw [h.free, hcov]
    exact Set.disjoint_sdiff_left.mono_right Set.subset_union_left) hm
  refine ⟨hok, hlen.trans h.length, ?_, h.live_disjoint.sublist List.erase_sublist, fun y hy =>
    h.live_subset y (List.mem_of_mem_erase hy)⟩
  change freeUnits mp' = freeUnits mp ∪ x.units at hfree
  rw [hfree, h.free, hcov]
  ext y
  have := @hsub y
  have hy : y ∈ x.units → y ∉ Extent.covered (live.erase x) := fun hyx =>
    Set.disjoint_left.mp hdisj hyx
  simp only [Set.mem_union, Set.mem_sdiff]
  tauto

private theorem MapRun.inv {N base n : ℕ} (hbase : 0 < base) (hn : base + n < 65536)
    {mp : List Map} {live : List Extent} (h : MapRun N base n mp live) :
    RunInv N base n mp live := by
  induction h with
  | boot h => exact RunInv.boot hn h
  | malloc _ hs _ hm ih => exact ih.malloc hbase hs hm
  | mfree _ hx hm ih => exact ih.mfree hn hx hm

/-- In every state a resource map reaches it is an exact first-fit allocator of the range it was
given. -/
theorem MapRun.exactFirstFit {N base n : ℕ} (hbase : 0 < base) (hn : base + n < 65536)
    {mp : List Map} {live : List Extent} (h : MapRun N base n mp live) :
    ExactFirstFit N base n mp live := by
  have hinv := h.inv hbase hn
  obtain ⟨l, hl⟩ := hinv.ok
  have hcov : Extent.covered l = Set.Ico base (base + n) \ Extent.covered live :=
    hl.freeUnits_eq.symm.trans hinv.free
  have hle : l.length ≤ live.length + 1 := hl.coalesced.length_le hcov
  -- a result of `malloc` that comes from the free units is not 0
  have hne : ∀ {s a : ℕ}, 0 < s → Set.Ico a (a + s) ⊆ freeUnits mp → a ≠ 0 := by
    intro s a hs hsub
    have hmem := hsub (show a ∈ Set.Ico a (a + s) from ⟨le_rfl, by omega⟩)
    rw [hinv.free] at hmem
    have := hmem.1.1
    omega
  refine ⟨?_, hl.stale, ?_, hinv.live_disjoint, hinv.live_subset, hinv.free, ?_, ?_, ?_, ?_, ?_⟩
  · rw [hl.entries_eq, List.pairwise_map]
    exact hl.coalesced.sep
  · rw [hl.entries_eq]
    intro e he
    obtain ⟨x, hx, rfl⟩ := List.mem_map.mp he
    exact hl.coalesced.pos x hx
  · intro s a mp' hs _ hm
    obtain ⟨-, -, ⟨rfl, -, hnone⟩ | ⟨⟨hsub, -⟩, -⟩⟩ := malloc_freeUnits hinv.ok hs hm
    · exact iff_of_true rfl hnone
    · exact iff_of_false (hne hs hsub) fun hnone => hnone a hsub
  · intro s a mp' hs _ hm ha
    obtain ⟨-, -, ⟨rfl, -, -⟩ | ⟨hleast, -⟩⟩ := malloc_freeUnits hinv.ok hs hm
    · exact absurd rfl ha
    · refine ⟨hleast, fun x hx => ?_⟩
      have hsub : Set.Ico a (a + s) ⊆ freeUnits mp := hleast.1
      rw [hinv.free] at hsub
      rw [Set.disjoint_left]
      exact fun y hyx hy => (hsub hy).2 ⟨x, hx, hyx⟩
  · rintro rfl
    rw [hl.entries_eq]
    rw [Extent.covered_nil, Set.sdiff_empty] at hcov
    split
    next h0 =>
      subst h0
      rw [hl.coalesced.unique Extent.Coalesced.nil (by simpa using hcov)]
      rfl
    next hpos =>
      have hone : Extent.Coalesced [⟨base, n⟩] :=
        Extent.coalesced_cons.mpr ⟨Nat.pos_of_ne_zero hpos, by simp, Extent.Coalesced.nil⟩
      rw [hl.coalesced.unique hone (by rw [hcov]; simp [Extent.units, Extent.stop])]
      rfl
  · rw [hl.entries_eq, List.length_map]
    exact hle
  · intro hN
    have hlt : l.length < mp.length := by
      rw [hinv.length]
      omega
    exact ⟨fun s => malloc_ne_none hl hlt, fun x _ => mfree_ne_none hl hlt⟩

/-- The boot state of `swapmap`, 50 entries given 872 blocks from block 4000, after one allocation
of a process image. -/
theorem MapRun.exactFirstFit_swapmap :
    ExactFirstFit 50 4000 872
      ({ m_size := 728, m_addr := 4144 } :: List.replicate 49 { m_size := 0, m_addr := 0 })
      [⟨4000, 144⟩] :=
  MapRun.exactFirstFit (by decide) (by decide)
    (MapRun.malloc (a := 4000) (MapRun.boot rfl) (by decide) (by decide) rfl)

end UnixV6
