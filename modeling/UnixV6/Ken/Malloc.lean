import UnixV6.Lib.Extent

/-!
# Core and swap allocation (`ken/malloc.c`)

`coremap` and `swapmap` are arrays of `struct map`: a non-zero count and the base address of that
many contiguous units, in increasing order of address, ended by the first zero count. An array is
modelled as the list of its entries and a pointer into it as the suffix it points at; a pointer
that runs off the array gives `none`. Both fields are 16 bits, so sums are taken modulo `2 ^ 16`.

`Represents mp l` relates an array to the coalesced list of extents it stands for. `malloc_spec`
and `mfree_spec` say that the two routines are `Extent.firstFit` and `Extent.release` on that list,
and `malloc_ne_none` and `mfree_ne_none` that neither leaves the array while one entry is spare.
-/

namespace UnixV6

/-- An entry of `coremap` or `swapmap`. -/
structure Map where
  /-- The number of units; zero ends the list. -/
  m_size : ℕ
  /-- The address of the first unit. -/
  m_addr : ℕ
  deriving DecidableEq, Repr

/-- The shift of `malloc`: `do { bp++; (bp-1)->m_addr = bp->m_addr; } while ((bp-1)->m_size =
bp->m_size)`, started at the entry that has become empty. -/
def mallocShift : List Map → Option (List Map)
  | _ :: bp :: mp =>
    if bp.m_size = 0 then some (bp :: bp :: mp) else (mallocShift (bp :: mp)).map (bp :: ·)
  | _ => none

/-- Allocate `size` units from the given map, first fit. Returns the base of the allocated space,
or 0, and the map. -/
def malloc : List Map → ℕ → Option (ℕ × List Map)
  | [], _ => none
  | bp :: mp, size =>
    if bp.m_size = 0 then some (0, bp :: mp)
    else if size ≤ bp.m_size then
      let bp' : Map := { m_addr := (bp.m_addr + size) % 65536, m_size := bp.m_size - size }
      if bp'.m_size = 0 then (mallocShift (bp' :: mp)).map fun mp' => (bp.m_addr, mp')
      else some (bp.m_addr, bp' :: mp)
    else
      (malloc mp size).map fun p => (p.1, bp :: p.2)

/-- The closing up of `mfree`: `while (bp->m_size) { bp++; ... }`, copying each entry over the one
before it. -/
def mfreeShift : List Map → Option (List Map)
  | [] => none
  | bp :: mp =>
    if bp.m_size = 0 then some (bp :: mp)
    else
      match mp with
      | [] => none
      | nx :: _ => (mfreeShift mp).map (nx :: ·)

/-- The insertion of `mfree`: `do { ... } while (size = t)`, moving each entry up by one. -/
def mfreeInsert : List Map → ℕ → ℕ → Option (List Map)
  | [], _, _ => none
  | bp :: mp, size, a =>
    let e : Map := { m_size := size, m_addr := a }
    if bp.m_size = 0 then some (e :: mp) else (mfreeInsert mp bp.m_size bp.m_addr).map (e :: ·)

/-- `mfree` where the freed space does not continue the entry before `bp`: join it to `bp`, or
insert it. -/
def mfreeBefore (size a : ℕ) (bp : Map) (mp : List Map) : Option (List Map) :=
  if (a + size) % 65536 = bp.m_addr ∧ bp.m_size ≠ 0 then
    some ({ m_addr := (bp.m_addr + 65536 - size) % 65536,
            m_size := (bp.m_size + size) % 65536 } :: mp)
  else if size ≠ 0 then mfreeInsert (bp :: mp) size a
  else some (bp :: mp)

/-- `mfree` where the freed space continues the entry `pv` before `bp`. -/
def mfreeJoin (size a : ℕ) (pv bp : Map) (mp : List Map) : Option (List Map) :=
  let pv' : Map := { pv with m_size := (pv.m_size + size) % 65536 }
  if (a + size) % 65536 = bp.m_addr then
    (mfreeShift (bp :: mp)).map
      ({ pv' with m_size := (pv'.m_size + bp.m_size) % 65536 } :: ·)
  else
    some (pv' :: bp :: mp)

/-- The search of `mfree`, with the entry before `bp` if there is one. Returns the map from that
entry on. -/
def mfreeScan (size a : ℕ) : Option Map → List Map → Option (List Map)
  | _, [] => none
  | pv, bp :: mp =>
    if bp.m_addr ≤ a ∧ bp.m_size ≠ 0 then
      (mfreeScan size a (some bp) mp).map (pv.toList ++ ·)
    else
      match pv with
      | some pv =>
        if (pv.m_addr + pv.m_size) % 65536 = a then mfreeJoin size a pv bp mp
        else (mfreeBefore size a bp mp).map (pv :: ·)
      | none => mfreeBefore size a bp mp

/-- Free the previously allocated space `aa` of `size` units into the specified map. -/
def mfree (mp : List Map) (size aa : ℕ) : Option (List Map) :=
  mfreeScan size aa none mp

/-! ## The extents a map stands for -/

/-- The map entry of an extent. -/
def Map.ofExtent (e : Extent) : Map := { m_size := e.len, m_addr := e.base }

/-- The extent of a map entry. -/
def Map.extent (bp : Map) : Extent := ⟨bp.m_addr, bp.m_size⟩

@[simp] theorem Map.ofExtent_m_size (e : Extent) : (Map.ofExtent e).m_size = e.len := rfl
@[simp] theorem Map.ofExtent_m_addr (e : Extent) : (Map.ofExtent e).m_addr = e.base := rfl
@[simp] theorem Map.extent_ofExtent (e : Extent) : (Map.ofExtent e).extent = e := rfl

/-- The entries before the first zero `m_size`. -/
def entries (mp : List Map) : List Map := mp.takeWhile fun bp => bp.m_size != 0

/-- `mp` holds the extents `l`, then only entries of size zero; the list is coalesced and ends
below `2 ^ 16`. -/
structure Represents (mp : List Map) (l : List Extent) : Prop where
  /-- The extents come first, and every entry after them has size zero. -/
  layout : ∃ z : List Map, mp = l.map Map.ofExtent ++ z ∧ ∀ bp ∈ z, bp.m_size = 0
  /-- The extents are maximal runs in increasing order. -/
  coalesced : Extent.Coalesced l
  /-- Addresses are 16 bits. -/
  bounded : ∀ e ∈ l, e.stop < 65536

/-- The entries of a map are its extents. -/
theorem Represents.entries_eq {mp : List Map} {l : List Extent} (h : Represents mp l) :
    entries mp = l.map Map.ofExtent := by
  obtain ⟨z, rfl, hz⟩ := h.layout
  have hpos := h.coalesced.pos
  rw [entries, List.takeWhile_append_of_pos, List.append_right_eq_self]
  · cases z with
    | nil => rfl
    | cons bp z => simp [hz bp (by simp)]
  · intro bp hbp
    obtain ⟨e, he, rfl⟩ := List.mem_map.mp hbp
    have := hpos e he
    simp only [Map.ofExtent_m_size, bne_iff_ne, ne_eq]
    omega

/-- The entries behind the extents are empty. -/
theorem Represents.stale {mp : List Map} {l : List Extent} (h : Represents mp l) :
    ∀ bp ∈ mp.drop (entries mp).length, bp.m_size = 0 := by
  rw [h.entries_eq]
  obtain ⟨z, rfl, hz⟩ := h.layout
  simpa using hz

/-! ## `malloc` is first fit -/

/-- `malloc` moves the entries down over one that is used up. -/
theorem mallocShift_eq {bp : Map} {l : List Extent} {z mp' : List Map}
    (hl : ∀ e ∈ l, 0 < e.len) (hz : ∀ bp ∈ z, bp.m_size = 0)
    (h : mallocShift (bp :: (l.map Map.ofExtent ++ z)) = some mp') :
    mp'.length = l.length + z.length + 1 ∧
      ∃ z', mp' = l.map Map.ofExtent ++ z' ∧ ∀ bp ∈ z', bp.m_size = 0 := by
  induction l generalizing bp mp' with
  | nil =>
    cases z with
    | nil => simp [mallocShift] at h
    | cons t z =>
      have ht := hz t (by simp)
      simp only [List.map_nil, List.nil_append, mallocShift, ht, ↓reduceIte,
        Option.some.injEq] at h
      subst h
      exact ⟨by simp, t :: t :: z, rfl, by simpa [ht] using hz⟩
  | cons e l ih =>
    have hne : ¬ (Map.ofExtent e).m_size = 0 := by
      have := hl e (by simp)
      simp only [Map.ofExtent_m_size]
      omega
    rw [List.map_cons, List.cons_append, mallocShift, if_neg hne, Option.map_eq_some_iff] at h
    obtain ⟨mp'', hmp, rfl⟩ := h
    obtain ⟨hlen, z', rfl, hz'⟩ := ih (fun f hf => hl f (by simp [hf])) hmp
    exact ⟨by simp only [List.length_cons, hlen]; omega, z', rfl, hz'⟩

/-- The loop that moves entries down ends at an empty one. -/
theorem mallocShift_ne_none {bp : Map} {l : List Extent} {t : Map} {z : List Map}
    (ht : t.m_size = 0) : mallocShift (bp :: (l.map Map.ofExtent ++ t :: z)) ≠ none := by
  induction l generalizing bp with
  | nil => simp [mallocShift, ht]
  | cons e l ih =>
    rw [List.map_cons, List.cons_append, mallocShift]
    split
    · simp
    · simpa using ih

/-- The array-level step of `malloc_spec`. -/
private theorem malloc_layout {l : List Extent} {z mp' : List Map} {s a : ℕ}
    (hl : ∀ e ∈ l, 0 < e.len) (hb : ∀ e ∈ l, e.stop < 65536) (hz : ∀ bp ∈ z, bp.m_size = 0)
    (h : malloc (l.map Map.ofExtent ++ z) s = some (a, mp')) :
    mp'.length = l.length + z.length ∧
      ((Extent.firstFit l s = none ∧ a = 0 ∧ mp' = l.map Map.ofExtent ++ z) ∨
        ∃ l', Extent.firstFit l s = some (a, l') ∧
          ∃ z', mp' = l'.map Map.ofExtent ++ z' ∧ ∀ bp ∈ z', bp.m_size = 0) := by
  induction l generalizing mp' with
  | nil =>
    cases z with
    | nil => simp [malloc] at h
    | cons t z =>
      simp only [List.map_nil, List.nil_append, malloc, hz t (by simp), ↓reduceIte,
        Option.some.injEq, Prod.mk.injEq] at h
      obtain ⟨rfl, rfl⟩ := h
      exact ⟨by simp, Or.inl ⟨rfl, rfl, rfl⟩⟩
  | cons e l ih =>
    have hpos := hl e (by simp)
    have hstop := hb e (by simp)
    simp only [Extent.stop] at hstop
    have hne : ¬ e.len = 0 := by omega
    rw [List.map_cons, List.cons_append, malloc, if_neg (by simpa using hne)] at h
    rw [Extent.firstFit]
    split at h
    next hle =>
      simp only [Map.ofExtent_m_size] at hle
      rw [if_pos hle]
      dsimp only at h
      split at h
      next hzero =>
        -- the entry is used up: the entries above it move down
        have heq : e.len = s := by
          simp only [Map.ofExtent_m_size] at hzero
          omega
        rw [Option.map_eq_some_iff] at h
        obtain ⟨mp'', hmp, hpair⟩ := h
        simp only [Prod.mk.injEq] at hpair
        obtain ⟨rfl, rfl⟩ := hpair
        obtain ⟨hlen, hz'⟩ := mallocShift_eq (fun f hf => hl f (by simp [hf])) hz hmp
        exact ⟨by simp only [hlen, List.length_cons]; omega,
          Or.inr ⟨l, by rw [if_pos heq]; rfl, hz'⟩⟩
      next hpos' =>
        have hne' : ¬ e.len = s := by
          simp only [Map.ofExtent_m_size] at hpos'
          omega
        simp only [Option.some.injEq, Prod.mk.injEq] at h
        obtain ⟨rfl, rfl⟩ := h
        refine ⟨by simp only [List.length_cons, List.length_append, List.length_map]; omega,
          Or.inr ⟨_, by rw [if_neg hne']; rfl, z, ?_, hz⟩⟩
        rw [List.map_cons, List.cons_append, Map.ofExtent_m_addr, Nat.mod_eq_of_lt (by omega)]
        rfl
    next hlt =>
      simp only [Map.ofExtent_m_size] at hlt
      rw [if_neg hlt]
      rw [Option.map_eq_some_iff] at h
      obtain ⟨⟨a', mp''⟩, hmp, hpair⟩ := h
      simp only [Prod.mk.injEq] at hpair
      obtain ⟨rfl, rfl⟩ := hpair
      obtain ⟨hlen, hres⟩ := ih (fun f hf => hl f (by simp [hf]))
        (fun f hf => hb f (by simp [hf])) hmp
      refine ⟨by simp only [List.length_cons, hlen]; omega, ?_⟩
      rcases hres with ⟨hnone, rfl, rfl⟩ | ⟨l', hsome, z', rfl, hz'⟩
      · exact Or.inl ⟨by rw [hnone]; rfl, rfl, rfl⟩
      · exact Or.inr ⟨e :: l', by rw [hsome]; rfl, z', rfl, hz'⟩

/-- `malloc` takes the first extent that fits, or returns 0 and leaves the map alone. -/
theorem malloc_spec {mp mp' : List Map} {l : List Extent} {s a : ℕ} (hmp : Represents mp l)
    (hs : 0 < s) (h : malloc mp s = some (a, mp')) :
    mp'.length = mp.length ∧
      ((Extent.firstFit l s = none ∧ a = 0 ∧ mp' = mp) ∨
        ∃ l', Extent.firstFit l s = some (a, l') ∧ Represents mp' l') := by
  obtain ⟨⟨z, rfl, hz⟩, hl, hb⟩ := hmp
  obtain ⟨hlen, hres⟩ := malloc_layout hl.pos hb hz h
  refine ⟨by simpa using hlen, ?_⟩
  rcases hres with hnone | ⟨l', hff, hlay⟩
  · exact Or.inl hnone
  · refine Or.inr ⟨l', hff, hlay, hl.firstFit hs hff, fun e he => ?_⟩
    -- every extent of `l'` ends where one of `l` does
    obtain ⟨pre, f, post, rfl, -, hle, -, rfl⟩ := Extent.firstFit_cases hff
    rw [List.mem_append] at he
    rcases he with he | he
    · exact hb e (by simp [he])
    · split at he
      · exact hb e (by simp [he])
      · rcases List.mem_cons.mp he with rfl | he
        · have := hb f (by simp)
          simp only [Extent.stop] at this ⊢
          omega
        · exact hb e (by simp [he])

/-- `malloc` ends within the map. -/
theorem malloc_ne_none {mp : List Map} {l : List Extent} {s : ℕ} (hmp : Represents mp l)
    (hlen : l.length < mp.length) : malloc mp s ≠ none := by
  obtain ⟨⟨z, rfl, hz⟩, -, -⟩ := hmp
  cases z with
  | nil => simp at hlen
  | cons t z =>
    have ht := hz t (by simp)
    clear hlen hz
    induction l with
    | nil => simp [malloc, ht]
    | cons e l ih =>
      rw [List.map_cons, List.cons_append, malloc]
      split
      · simp
      · split
        · dsimp only
          split
          · simpa using mallocShift_ne_none ht
          · simp
        · simpa using ih

/-! ## `mfree` is release -/

/-- `mfree` moves the entries down over one that was joined. -/
theorem mfreeShift_eq {l : List Extent} {z mp' : List Map} (hl : ∀ e ∈ l, 0 < e.len)
    (hz : ∀ bp ∈ z, bp.m_size = 0) (h : mfreeShift (l.map Map.ofExtent ++ z) = some mp') :
    mp'.length = l.length + z.length ∧
      ∃ z', mp' = l.tail.map Map.ofExtent ++ z' ∧ ∀ bp ∈ z', bp.m_size = 0 := by
  induction l generalizing mp' with
  | nil =>
    cases z with
    | nil => simp [mfreeShift] at h
    | cons t z =>
      -- the entry behind the last one takes the end mark
      simp only [List.map_nil, List.nil_append, mfreeShift, hz t (by simp), ↓reduceIte,
        Option.some.injEq] at h
      subst h
      exact ⟨by simp, t :: z, rfl, hz⟩
  | cons e l ih =>
    have hne : ¬ (Map.ofExtent e).m_size = 0 := by
      have := hl e (by simp)
      simp only [Map.ofExtent_m_size]
      omega
    have hl' : ∀ f ∈ l, 0 < f.len := fun f hf => hl f (by simp [hf])
    cases l with
    | nil =>
      cases z with
      | nil => simp [mfreeShift, show ¬ e.len = 0 from hne] at h
      | cons t z =>
        simp only [List.map_cons, List.map_nil, List.cons_append, List.nil_append, mfreeShift, hne,
          hz t (by simp), ↓reduceIte, Option.map_some, Option.some.injEq] at h
        subst h
        exact ⟨by simp; omega, t :: t :: z, rfl, by simpa [hz t (by simp)] using hz⟩
    | cons f l =>
      rw [List.map_cons, List.map_cons, List.cons_append, List.cons_append, mfreeShift,
        if_neg hne] at h
      simp only [Option.map_eq_some_iff] at h
      obtain ⟨mp'', hmp, rfl⟩ := h
      obtain ⟨hlen, z', rfl, hz'⟩ := ih hl' hmp
      exact ⟨by simp only [List.length_cons, hlen]; omega, z', rfl, hz'⟩

/-- `mfree` moves the entries up for a new one. -/
theorem mfreeInsert_eq {l : List Extent} {z mp' : List Map} {size a : ℕ}
    (hl : ∀ e ∈ l, 0 < e.len) (hz : ∀ bp ∈ z, bp.m_size = 0)
    (h : mfreeInsert (l.map Map.ofExtent ++ z) size a = some mp') :
    mp'.length = l.length + z.length ∧
      ∃ z', mp' = Map.ofExtent ⟨a, size⟩ :: (l.map Map.ofExtent ++ z') ∧
        ∀ bp ∈ z', bp.m_size = 0 := by
  induction l generalizing mp' size a with
  | nil =>
    cases z with
    | nil => simp [mfreeInsert] at h
    | cons t z =>
      simp only [List.map_nil, List.nil_append, mfreeInsert, hz t (by simp), ↓reduceIte,
        Option.some.injEq] at h
      subst h
      exact ⟨by simp, z, rfl, fun bp hbp => hz bp (by simp [hbp])⟩
  | cons e l ih =>
    have hne : ¬ (Map.ofExtent e).m_size = 0 := by
      have := hl e (by simp)
      simp only [Map.ofExtent_m_size]
      omega
    rw [List.map_cons, List.cons_append, mfreeInsert, if_neg hne, Option.map_eq_some_iff] at h
    obtain ⟨mp'', hmp, rfl⟩ := h
    obtain ⟨hlen, z', rfl, hz'⟩ := ih (fun f hf => hl f (by simp [hf])) hmp
    exact ⟨by simp only [List.length_cons, hlen]; omega, z', rfl, hz'⟩

/-- Below the search: the freed extent `x` goes in front of `l`, and joins its head if they
touch. -/
private theorem mfreeBefore_eq {l : List Extent} {z mp mp' : List Map} {x : Extent} {bp : Map}
    (hx : 0 < x.len) (hl : ∀ e ∈ l, 0 < e.len) (hb : ∀ e ∈ l, e.stop < 65536)
    (hxb : x.stop < 65536) (hz : ∀ bp ∈ z, bp.m_size = 0)
    (hbp : bp :: mp = l.map Map.ofExtent ++ z) (h : mfreeBefore x.len x.base bp mp = some mp') :
    mp'.length = l.length + z.length ∧
      ∃ z', mp' = (Extent.joinHead x l).map Map.ofExtent ++ z' ∧ ∀ bp ∈ z', bp.m_size = 0 := by
  have hins : ¬ ((x.base + x.len) % 65536 = bp.m_addr ∧ bp.m_size ≠ 0) →
      mp'.length = l.length + z.length ∧
        ∃ z', mp' = Map.ofExtent x :: (l.map Map.ofExtent ++ z') ∧ ∀ bp ∈ z', bp.m_size = 0 := by
    intro hno
    rw [mfreeBefore, if_neg hno, if_pos (by omega), hbp] at h
    exact mfreeInsert_eq hl hz h
  simp only [Extent.stop] at hxb
  cases l with
  | nil =>
    -- nothing is behind the extent
    have hno : ¬ ((x.base + x.len) % 65536 = bp.m_addr ∧ bp.m_size ≠ 0) := by
      have : bp.m_size = 0 := hz bp (by rw [List.map_nil, List.nil_append] at hbp; simp [← hbp])
      simp [this]
    obtain ⟨hlen, z', rfl, hz'⟩ := hins hno
    exact ⟨hlen, z', rfl, hz'⟩
  | cons e l =>
    rw [List.map_cons, List.cons_append, List.cons.injEq] at hbp
    obtain ⟨rfl, rfl⟩ := hbp
    have he := hl e (by simp)
    have hstop := hb e (by simp)
    rw [Extent.joinHead]
    -- the next extent is joined, if it begins where this one ends
    by_cases htouch : x.stop = e.base
    · simp only [Extent.stop] at htouch hstop
      rw [mfreeBefore, if_pos ⟨by simp only [Map.ofExtent_m_addr]; omega, by
        simp only [Map.ofExtent_m_size]; omega⟩, Option.some.injEq] at h
      subst h
      rw [if_pos (by simp only [Extent.stop]; omega)]
      refine ⟨by simp only [List.length_cons, List.length_append, List.length_map]; omega,
        z, ?_, hz⟩
      simp only [List.map_cons, List.cons_append, List.cons.injEq, and_true, Map.ofExtent,
        Map.mk.injEq]
      omega
    · rw [if_neg htouch]
      simp only [Extent.stop] at htouch
      obtain ⟨hlen, z', rfl, hz'⟩ := hins (by
        simp only [Map.ofExtent_m_addr, not_and]
        omega)
      exact ⟨hlen, z', rfl, hz'⟩

/-- Below the search: the freed extent continues `p`, and may reach the head of `l`. -/
private theorem mfreeJoin_eq {l : List Extent} {z mp mp' : List Map} {p x : Extent} {bp : Map}
    (hl : ∀ e ∈ l, 0 < e.len) (hb : ∀ e ∈ l, e.stop < 65536) (hxb : x.stop < 65536)
    (hpx : p.stop = x.base) (hz : ∀ bp ∈ z, bp.m_size = 0)
    (hbp : bp :: mp = l.map Map.ofExtent ++ z)
    (h : mfreeJoin x.len x.base (Map.ofExtent p) bp mp = some mp') :
    mp'.length = l.length + z.length + 1 ∧
      ∃ z', mp' = (Extent.joinHead ⟨p.base, p.len + x.len⟩ l).map Map.ofExtent ++ z' ∧
        ∀ bp ∈ z', bp.m_size = 0 := by
  simp only [Extent.stop] at hxb hpx
  have hmod : (p.len + x.len) % 65536 = p.len + x.len := Nat.mod_eq_of_lt (by omega)
  rw [mfreeJoin] at h
  simp only [Map.ofExtent_m_size, hmod] at h
  cases l with
  | nil =>
    -- only stale entries follow: nothing is added and nothing moves
    rw [List.map_nil, List.nil_append] at hbp
    have hbp0 : bp.m_size = 0 := hz bp (by simp [← hbp])
    have hshift : mfreeShift (bp :: mp) = some (bp :: mp) := by simp [mfreeShift, hbp0]
    simp only [hbp0, hshift, Option.map_some, Nat.add_zero, hmod, ite_self,
      Option.some.injEq] at h
    subst h
    exact ⟨by simp [← hbp], z, by simp [Extent.joinHead, Map.ofExtent, hbp], hz⟩
  | cons e l =>
    have hbp' := hbp
    rw [List.map_cons, List.cons_append, List.cons.injEq] at hbp'
    obtain ⟨rfl, hmp⟩ := hbp'
    have hstop := hb e (by simp)
    rw [Extent.joinHead]
    simp only [Extent.stop] at hstop
    split at h
    next htouch =>
      simp only [Map.ofExtent_m_addr] at htouch
      rw [if_pos (by simp only [Extent.stop]; omega)]
      rw [Option.map_eq_some_iff] at h
      obtain ⟨mp'', hshift, rfl⟩ := h
      rw [hbp] at hshift
      obtain ⟨hlen, z', rfl, hz'⟩ := mfreeShift_eq hl hz hshift
      refine ⟨by simp only [List.length_cons, hlen], z', ?_, hz'⟩
      simp only [List.tail_cons, List.map_cons, List.cons_append, List.cons.injEq, and_true,
        Map.ofExtent, Map.mk.injEq]
      omega
    next htouch =>
      simp only [Map.ofExtent_m_addr] at htouch
      rw [if_neg (by simp only [Extent.stop]; omega)]
      simp only [Option.some.injEq] at h
      subst h
      refine ⟨by simp [hmp]; omega, z, ?_, hz⟩
      simp [hmp, Map.ofExtent]

/-- The search of `mfree` with an entry behind it. -/
private theorem mfreeScan_eq {l : List Extent} {z mp' : List Map} {p x : Extent}
    (hx : 0 < x.len) (hl : Extent.Coalesced (p :: l)) (hb : ∀ e ∈ p :: l, e.stop < 65536)
    (hxb : x.stop < 65536) (hz : ∀ bp ∈ z, bp.m_size = 0) (hpx : p.base ≤ x.base)
    (h : mfreeScan x.len x.base (some (Map.ofExtent p)) (l.map Map.ofExtent ++ z) = some mp') :
    mp'.length = l.length + z.length + 1 ∧
      ∃ z', mp' = (Extent.release (p :: l) x).map Map.ofExtent ++ z' ∧
        ∀ bp ∈ z', bp.m_size = 0 := by
  induction l generalizing p mp' with
  | nil =>
    have hpb := hb p (by simp)
    cases z with
    | nil => simp [mfreeScan] at h
    | cons t z =>
      have ht := hz t (by simp)
      have hno : ¬ (t.m_addr ≤ x.base ∧ t.m_size ≠ 0) := by simp [ht]
      rw [List.map_nil, List.nil_append, mfreeScan, if_neg hno] at h
      simp only [Extent.stop] at hpb
      simp only [Map.ofExtent_m_addr, Map.ofExtent_m_size, Nat.mod_eq_of_lt hpb] at h
      rw [Extent.release, if_pos hpx]
      split at h
      next heq =>
        rw [if_pos (by simpa only [Extent.stop] using heq)]
        exact mfreeJoin_eq (l := []) (by simp) (by simp) hxb heq hz rfl h
      next hne =>
        rw [if_neg (by simpa only [Extent.stop] using hne)]
        rw [Option.map_eq_some_iff] at h
        obtain ⟨mp'', hmp, rfl⟩ := h
        obtain ⟨hlen, z', rfl, hz'⟩ :=
          mfreeBefore_eq (l := []) hx (by simp) (by simp) hxb hz rfl hmp
        exact ⟨by simp only [List.length_cons, hlen], z', rfl, hz'⟩
  | cons e l ih =>
    have hpb := hb p (by simp)
    simp only [Extent.stop] at hpb
    obtain ⟨-, hlt, hl'⟩ := Extent.coalesced_cons.mp hl
    have hpe := hlt e (by simp)
    have hb' : ∀ f ∈ e :: l, f.stop < 65536 := fun f hf => hb f (List.mem_cons_of_mem _ hf)
    have hepos := hl'.pos e (by simp)
    rw [List.map_cons, List.cons_append, mfreeScan] at h
    simp only [Map.ofExtent_m_addr, Map.ofExtent_m_size, Nat.mod_eq_of_lt hpb] at h
    rw [Extent.release, if_pos hpx]
    split at h
    next hle =>
      -- the search goes on: `p` cannot be adjacent to `x`
      rw [Option.map_eq_some_iff] at h
      obtain ⟨mp'', hmp, rfl⟩ := h
      obtain ⟨hlen, z', rfl, hz'⟩ := ih hl' hb' hle.1 hmp
      rw [if_neg (by omega)]
      refine ⟨?_, z', by simp, hz'⟩
      simp only [Option.toList_some, List.length_append, List.length_cons,
        List.length_nil] at hlen ⊢
      omega
    next hgt =>
      have hrel : Extent.release (e :: l) x = Extent.joinHead x (e :: l) := by
        rw [Extent.release, if_neg (by omega)]
      split at h
      next heq =>
        rw [if_pos (by simpa only [Extent.stop] using heq)]
        exact mfreeJoin_eq hl'.pos hb' hxb heq hz rfl h
      next hne =>
        rw [if_neg (by simpa only [Extent.stop] using hne), hrel]
        rw [Option.map_eq_some_iff] at h
        obtain ⟨mp'', hmp, rfl⟩ := h
        obtain ⟨hlen, z', rfl, hz'⟩ := mfreeBefore_eq hx hl'.pos hb' hxb hz rfl hmp
        exact ⟨by simp only [List.length_cons, hlen], z', rfl, hz'⟩

/-- `mfree` gives the extent back to the list the map stands for. -/
theorem mfree_spec {mp mp' : List Map} {l : List Extent} {x : Extent} (hmp : Represents mp l)
    (hx : 0 < x.len) (hxb : x.stop < 65536) (hdisj : Disjoint (Extent.covered l) x.units)
    (h : mfree mp x.len x.base = some mp') :
    mp'.length = mp.length ∧ Represents mp' (Extent.release l x) := by
  obtain ⟨⟨z, rfl, hz⟩, hl, hb⟩ := hmp
  suffices hlay : mp'.length = l.length + z.length ∧
      ∃ z', mp' = (Extent.release l x).map Map.ofExtent ++ z' ∧ ∀ bp ∈ z', bp.m_size = 0 by
    refine ⟨by simpa using hlay.1, hlay.2, hl.release hx hdisj, fun e he => ?_⟩
    -- the last unit of an extent of the result is one of `l` or of `x`
    have hpos := (hl.release hx hdisj).pos e he
    have hmem : e.stop - 1 ∈ Extent.covered (Extent.release l x) :=
      ⟨e, he, by simp only [Extent.mem_units, Extent.stop]; omega⟩
    rw [Extent.covered_release] at hmem
    simp only [Extent.stop] at hmem hxb ⊢
    rcases hmem with ⟨f, hf, hfx⟩ | hfx
    · have := hb f hf
      simp only [Extent.mem_units, Extent.stop] at hfx this
      omega
    · simp only [Extent.mem_units, Extent.stop] at hfx
      omega
  rw [mfree] at h
  cases l with
  | nil =>
    cases z with
    | nil => simp [mfreeScan] at h
    | cons t z =>
      have hno : ¬ (t.m_addr ≤ x.base ∧ t.m_size ≠ 0) := by simp [hz t (by simp)]
      rw [List.map_nil, List.nil_append, mfreeScan, if_neg hno] at h
      exact mfreeBefore_eq (l := []) hx (by simp) (by simp) hxb hz rfl h
  | cons e l =>
    have hepos := hl.pos e (by simp)
    rw [List.map_cons, List.cons_append, mfreeScan] at h
    split at h
    next hle =>
      rw [Option.map_eq_some_iff] at h
      obtain ⟨mp'', hmp, rfl⟩ := h
      obtain ⟨hlen, z', rfl, hz'⟩ := mfreeScan_eq hx hl hb hxb hz hle.1 hmp
      refine ⟨?_, z', by simp, hz'⟩
      simp only [Option.toList_none, List.nil_append, List.length_cons] at hlen ⊢
      omega
    next hgt =>
      simp only [Map.ofExtent_m_addr, Map.ofExtent_m_size] at hgt
      rw [Extent.release, if_neg (by omega)]
      exact mfreeBefore_eq hx hl.pos hb hxb hz rfl h

/-- The loop that moves entries down ends at an empty one. -/
theorem mfreeShift_ne_none {l : List Extent} {t : Map} {z : List Map} (ht : t.m_size = 0) :
    mfreeShift (l.map Map.ofExtent ++ t :: z) ≠ none := by
  induction l with
  | nil => simp [mfreeShift, ht]
  | cons e l ih =>
    cases l with
    | nil =>
      simp only [List.map_cons, List.map_nil, List.cons_append, List.nil_append, mfreeShift]
      split <;> simp
    | cons f l =>
      rw [List.map_cons, List.map_cons, List.cons_append, List.cons_append, mfreeShift]
      split
      · simp
      · simpa using ih

/-- The loop that moves entries up ends at an empty one. -/
theorem mfreeInsert_ne_none {l : List Extent} {t : Map} {z : List Map} {size a : ℕ}
    (ht : t.m_size = 0) : mfreeInsert (l.map Map.ofExtent ++ t :: z) size a ≠ none := by
  induction l generalizing size a with
  | nil => simp [mfreeInsert, ht]
  | cons e l ih =>
    rw [List.map_cons, List.cons_append, mfreeInsert]
    split
    · simp
    · simpa using ih

/-- A release before an entry ends within the map. -/
private theorem mfreeBefore_ne_none {l : List Extent} {t bp : Map} {z mp : List Map} {size a : ℕ}
    (ht : t.m_size = 0) (hbp : bp :: mp = l.map Map.ofExtent ++ t :: z) :
    mfreeBefore size a bp mp ≠ none := by
  rw [mfreeBefore]
  split
  · simp
  · split
    · rw [hbp]
      exact mfreeInsert_ne_none ht
    · simp

/-- A release that joins its neighbours ends within the map. -/
private theorem mfreeJoin_ne_none {l : List Extent} {t bp pv : Map} {z mp : List Map} {size a : ℕ}
    (ht : t.m_size = 0) (hbp : bp :: mp = l.map Map.ofExtent ++ t :: z) :
    mfreeJoin size a pv bp mp ≠ none := by
  rw [mfreeJoin]
  dsimp only
  split
  · rw [hbp]
    simpa using mfreeShift_ne_none ht
  · simp

/-- The search of `mfree` ends within the map. -/
private theorem mfreeScan_ne_none {l : List Extent} {t : Map} {z : List Map} {size a : ℕ}
    {pv : Option Map} (ht : t.m_size = 0) :
    mfreeScan size a pv (l.map Map.ofExtent ++ t :: z) ≠ none := by
  -- the search ends at an entry of `l` or at the terminator
  have hstep : ∀ {bp : Map} {mp : List Map} {l : List Extent} {pv : Option Map},
      bp :: mp = l.map Map.ofExtent ++ t :: z →
      (bp.m_addr ≤ a ∧ bp.m_size ≠ 0 → mfreeScan size a (some bp) mp ≠ none) →
      mfreeScan size a pv (bp :: mp) ≠ none := by
    intro bp mp l pv hbp hgo
    cases pv <;> rw [mfreeScan] <;> split
    next hle => simpa using hgo hle
    next => exact mfreeBefore_ne_none ht hbp
    next hle => simpa using hgo hle
    next =>
      split
      · exact mfreeJoin_ne_none ht hbp
      · simpa using mfreeBefore_ne_none ht hbp
  induction l generalizing pv with
  | nil => exact hstep (l := []) rfl fun hle => absurd ht hle.2
  | cons e l ih => exact hstep (l := e :: l) rfl fun _ => ih

/-- `mfree` ends within the map. -/
theorem mfree_ne_none {mp : List Map} {l : List Extent} {size a : ℕ} (hmp : Represents mp l)
    (hlen : l.length < mp.length) : mfree mp size a ≠ none := by
  obtain ⟨⟨z, rfl, hz⟩, -, -⟩ := hmp
  cases z with
  | nil => simp at hlen
  | cons t z => exact mfreeScan_ne_none (hz t (by simp))

/-! ## The free units of a map -/

/-- The map is in order. -/
def MapOk (mp : List Map) : Prop := ∃ l, Represents mp l

/-- The units recorded as free. -/
def freeUnits (mp : List Map) : Set ℕ := Extent.covered ((entries mp).map Map.extent)

/-- What is free in a map is what its extents cover. -/
theorem Represents.freeUnits_eq {mp : List Map} {l : List Extent} (h : Represents mp l) :
    freeUnits mp = Extent.covered l := by
  rw [freeUnits, h.entries_eq, List.map_map]
  congr 1
  exact List.map_id l

/-- The effect of `malloc` on the free units. -/
theorem malloc_freeUnits {mp mp' : List Map} {s a : ℕ} (hmp : MapOk mp) (hs : 0 < s)
    (h : malloc mp s = some (a, mp')) :
    MapOk mp' ∧ mp'.length = mp.length ∧
      ((a = 0 ∧ mp' = mp ∧ ∀ b, ¬ Set.Ico b (b + s) ⊆ freeUnits mp) ∨
        (IsLeast {b | Set.Ico b (b + s) ⊆ freeUnits mp} a ∧
          freeUnits mp' = freeUnits mp \ Set.Ico a (a + s))) := by
  obtain ⟨l, hl⟩ := hmp
  rw [hl.freeUnits_eq]
  obtain ⟨hlen, ⟨hnone, rfl, rfl⟩ | ⟨l', hff, hl'⟩⟩ := malloc_spec hl hs h
  · exact ⟨⟨l, hl⟩, hlen, Or.inl
      ⟨rfl, rfl, (Extent.firstFit_eq_none_iff_forall hl.coalesced hs).mp hnone⟩⟩
  · rw [hl'.freeUnits_eq]
    exact ⟨⟨l', hl'⟩, hlen, Or.inr ⟨Extent.firstFit_isLeast hl.coalesced hs hff,
      (Extent.covered_firstFit hl.coalesced hff).2⟩⟩

/-- The effect of `mfree` on the free units. -/
theorem mfree_freeUnits {mp mp' : List Map} {size aa : ℕ} (hmp : MapOk mp) (hsize : 0 < size)
    (haa : aa + size < 65536) (hdisj : Disjoint (freeUnits mp) (Set.Ico aa (aa + size)))
    (h : mfree mp size aa = some mp') :
    MapOk mp' ∧ mp'.length = mp.length ∧
      freeUnits mp' = freeUnits mp ∪ Set.Ico aa (aa + size) := by
  obtain ⟨l, hl⟩ := hmp
  rw [hl.freeUnits_eq] at hdisj ⊢
  obtain ⟨hlen, hl'⟩ := mfree_spec (x := ⟨aa, size⟩) hl hsize haa hdisj h
  rw [hl'.freeUnits_eq, Extent.covered_release]
  exact ⟨⟨_, hl'⟩, hlen, rfl⟩

/-- The first `mfree` into an all-zero array. -/
theorem mfree_replicate {N base n : ℕ} {mp : List Map} (hn : base + n < 65536)
    (h : mfree (List.replicate N { m_size := 0, m_addr := 0 }) n base = some mp) :
    MapOk mp ∧ mp.length = N ∧ freeUnits mp = Set.Ico base (base + n) := by
  have h0 : Represents (List.replicate N { m_size := 0, m_addr := 0 }) [] :=
    ⟨⟨_, rfl, fun bp hbp => by rw [List.eq_of_mem_replicate hbp]⟩, Extent.Coalesced.nil, by simp⟩
  have hfree0 : freeUnits (List.replicate N { m_size := 0, m_addr := 0 }) = ∅ := by
    rw [h0.freeUnits_eq, Extent.covered_nil]
  rcases Nat.eq_zero_or_pos n with rfl | hpos
  · -- freeing nothing changes nothing
    have hmp : mp = List.replicate N { m_size := 0, m_addr := 0 } := by
      cases N with
      | zero => simp [mfree, mfreeScan] at h
      | succ N =>
        rw [List.replicate_succ]
        simpa [List.replicate_succ, mfree, mfreeScan, mfreeBefore] using h.symm
    subst hmp
    exact ⟨⟨_, h0⟩, by simp, by simp [hfree0]⟩
  · obtain ⟨hok, hlen, hfree⟩ := mfree_freeUnits ⟨_, h0⟩ hpos hn (by simp [hfree0]) h
    exact ⟨hok, by simpa using hlen, by simp [hfree, hfree0]⟩

end UnixV6
