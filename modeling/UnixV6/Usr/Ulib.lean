import UnixV6.Lib.OrderRing
import UnixV6.Lib.Run

/-!
# The heap of a user program (`usr/ulib.c`)

`malloc` and `free` with their circular list of free blocks. A block begins with a `Header` of four
bytes, which is also the unit in which blocks are measured; the fields of a header are functions of
its address. `malloc` gives out the upper end of the first free block that is large enough. When it
has gone once around the list without finding one, it calls `morecore`, which puts the one static
heap into the list, as it did the first time.
-/

open Function

namespace UnixV6.Ulib

/-- Where the linker has put the static variables: `base` and `heap` are apart, because `freep`,
which is declared between them, lies between them. -/
structure Layout where
  base : ℕ
  heap : ℕ
  base_pos : 0 < base
  heap_pos : 0 < heap
  apart : base + 4 < heap ∨ heap + 4 * 4096 < base
  base_lt : base + 4 < 65536
  heap_lt : heap + 4 * 4096 < 65536

/-- The static variables. -/
structure Mem where
  ptr : ℕ → ℕ
  size : ℕ → ℕ
  freep : ℕ

/-- `p + k`, for a pointer to a `Header`. -/
def plus (p k : ℕ) : ℕ := (p + 4 * k) % 65536

/-- The loop of `free`: the first node from `p` on behind which `bp` belongs. -/
def freeLoop (m : Mem) (bp : ℕ) : ℕ → ℕ → Option ℕ
  | 0, _ => none
  | fuel + 1, p =>
    if p < bp ∧ bp < m.ptr p then some p
    else if m.ptr p ≤ p ∧ (p < bp ∨ bp < m.ptr p) then some p
    else freeLoop m bp fuel (m.ptr p)

/-- `free`: the block `bp` is linked to the one behind `p`, or joined to it. -/
def linkNext (m : Mem) (p bp : ℕ) : Mem :=
  let q := m.ptr p
  if plus bp (m.size bp) = q then
    { m with
      size := update m.size bp ((m.size bp + m.size q) % 65536)
      ptr := update m.ptr bp (m.ptr q) }
  else { m with ptr := update m.ptr bp q }

/-- `free`: the block `p` is linked to `bp`, or joined to it. -/
def linkPrev (m : Mem) (p bp : ℕ) : Mem :=
  if plus p (m.size p) = bp then
    { m with
      size := update m.size p ((m.size p + m.size bp) % 65536)
      ptr := update m.ptr p (m.ptr bp) }
  else { m with ptr := update m.ptr p bp }

/-- `free` behind its loop. -/
def link (m : Mem) (p bp : ℕ) : Mem := { linkPrev (linkNext m p bp) p bp with freep := p }

/-- `free`, of the block with the header `bp`. -/
def free (fuel : ℕ) (m : Mem) (bp : ℕ) : Option Mem :=
  (freeLoop m bp fuel m.freep).map fun p => link m p bp

/-- `morecore`. -/
def morecore (L : Layout) (fuel : ℕ) (m : Mem) : Option Mem :=
  free fuel { m with size := update m.size L.heap 4096 } L.heap

/-- `malloc`, once the block `p` behind `prevp` has been found: the header of the block that is
given out. -/
def take (m : Mem) (nunits prevp p : ℕ) : ℕ × Mem :=
  if m.size p = nunits then (p, { m with ptr := update m.ptr prevp (m.ptr p), freep := prevp })
  else
    let size := update m.size p (m.size p - nunits)
    let p := plus p (size p)
    (p, { m with size := update size p nunits, freep := prevp })

/-- The loop of `malloc`: the header of the block, or 0. -/
def mallocLoop (L : Layout) (nunits : ℕ) : ℕ → Mem → ℕ → ℕ → Option (ℕ × Mem)
  | 0, _, _, _ => none
  | fuel + 1, m, prevp, p =>
    if nunits ≤ m.size p then some (take m nunits prevp p)
    else if p = m.freep then
      (morecore L fuel m).bind fun m =>
        if m.freep = 0 then some (0, m) else mallocLoop L nunits fuel m m.freep (m.ptr m.freep)
    else mallocLoop L nunits fuel m p (m.ptr p)

/-- The units for `nbytes` bytes and their header, computed in 16 bits. -/
def units (nbytes : ℕ) : ℕ := (nbytes + 3) % 65536 / 4 + 1

/-- The empty list that the first call of `malloc` makes. -/
def init (L : Layout) (m : Mem) : Mem :=
  if m.freep = 0 then
    { ptr := update m.ptr L.base L.base, size := update m.size L.base 0, freep := L.base }
  else m

/-- `malloc`: the header of the block, which lies before the pointer that is returned, or 0. -/
def malloc (L : Layout) (fuel : ℕ) (m : Mem) (nbytes : ℕ) : Option (ℕ × Mem) :=
  mallocLoop L (units nbytes) fuel (init L m) (init L m).freep ((init L m).ptr (init L m).freep)

/-! ## The program that uses the heap -/

/-- The heap and what the program has got from it: the headers of its blocks, each with the number
of bytes asked for. -/
structure Prog where
  mem : Mem
  alloc : ℕ → Option ℕ

/-- What the program does. -/
inductive ProgAct
  /-- `malloc(nbytes)`, in at most `fuel` turns of each loop. -/
  | malloc (nbytes fuel : ℕ)
  /-- `free` of a block that it has got, in at most `fuel` turns. -/
  | free (bp fuel : ℕ)
  /-- It writes into its block `bp`, at an address where a header might have been. -/
  | store (bp a ptr size : ℕ)

/-- One action; `none` if it is not finished in the number of turns, or not allowed. -/
def Prog.step (L : Layout) (s : Prog) : ProgAct → Option Prog
  | .malloc nbytes fuel =>
    if nbytes < 65536 then
      (malloc L fuel s.mem nbytes).map fun r =>
        if r.1 = 0 then { s with mem := r.2 }
        else { mem := r.2, alloc := update s.alloc r.1 (some nbytes) }
    else none
  | .free bp fuel =>
    if (s.alloc bp).isSome then
      (free fuel s.mem bp).map fun m => { mem := m, alloc := update s.alloc bp none }
    else none
  | .store bp a ptr size =>
    if (s.alloc bp).isSome ∧ bp < a ∧ a < bp + 4 * s.mem.size bp then
      some { s with mem := { s.mem with
        ptr := update s.mem.ptr a ptr, size := update s.mem.size a size } }
    else none

/-- At the start nothing has been asked for, and `freep` is null. -/
def Prog.start : Prog := ⟨⟨fun _ => 0, fun _ => 0, 0⟩, fun _ => none⟩

/-! ## What is claimed of it -/

/-- The bytes from `p` on and those from `q` on have none in common. -/
def Clear (p n q k : ℕ) : Prop := p + n ≤ q ∨ q + k ≤ p

/-- The block lies in the static heap. -/
def Layout.InHeap (L : Layout) (x k : ℕ) : Prop :=
  L.heap ≤ x ∧ 1 ≤ k ∧ x + 4 * k ≤ L.heap + 4 * 4096

/-- The free list, with the nodes `S`, is sorted with one wrap; its blocks and those that the
program has lie in the heap, apart from each other; and each of the latter is large enough for its
bytes. -/
structure ListApart (L : Layout) (s : Prog) (S : Finset ℕ) : Prop where
  ring : OrderRing s.mem.ptr S
  freep_mem : s.mem.freep ∈ S
  base_mem : L.base ∈ S
  size_base : s.mem.size L.base = 0
  disjoint : ∀ x ∈ S, s.alloc x = none
  inHeap : ∀ x, x ∈ S ∨ (s.alloc x).isSome → x ≠ L.base → L.InHeap x (s.mem.size x)
  apart : ∀ x y, x ∈ S ∨ (s.alloc x).isSome → y ∈ S ∨ (s.alloc y).isSome → x < y →
    x + 4 * s.mem.size x ≤ y
  bytes : ∀ x n, s.alloc x = some n → n + 4 ≤ 4 * s.mem.size x

/-- The free list is also coalesced. -/
structure ListOk (L : Layout) (s : Prog) (S : Finset ℕ) : Prop extends ListApart L s S where
  coalesced : ∀ x ∈ S, ∀ y ∈ S, x + 4 * s.mem.size x = y → x = y

/-- The free list before the first call of `malloc`, or after it. -/
def HeapOk (L : Layout) (s : Prog) : Prop :=
  (s.mem.freep = 0 ∧ ∀ x, s.alloc x = none) ∨ ∃ S, ListOk L s S

/-- What `malloc` returns is 0 or points to `n` bytes in the heap that are apart from every block
that the program has and from every header of the free list. -/
def MallocOk (L : Layout) (s : Prog) (n : ℕ) (r : ℕ × Mem) : Prop :=
  r.1 = 0 ∨ (L.heap ≤ r.1 + 4 ∧ r.1 + 4 + n ≤ L.heap + 4 * 4096 ∧
    (∀ x, (s.alloc x).isSome → Clear (r.1 + 4) n x (4 * s.mem.size x)) ∧
    ∀ k, Clear (r.1 + 4) n (r.2.ptr^[k] r.2.freep) 4)

/-- The free list is as it should be, and `malloc` and `free` return and do what they should. -/
def HeapSafe (L : Layout) (s : Prog) : Prop :=
  HeapOk L s ∧
    (∀ n < 65536, ∃ fuel r, malloc L fuel s.mem n = some r ∧ MallocOk L s n r) ∧
    ∀ x, (s.alloc x).isSome → ∃ fuel m, free fuel s.mem x = some m

/-- `malloc` finds a block for `n` bytes: their number does not wrap in 16 bits with a header added,
and a block of the free list has enough units; before the first call the whole heap counts. -/
def Prog.Fits (s : Prog) (n : ℕ) : Prop :=
  n + 3 < 65536 ∧
    if s.mem.freep = 0 then units n ≤ 4096
    else ∃ k, units n ≤ s.mem.size (s.mem.ptr^[k] s.mem.freep)

/-- Every call of `malloc` finds a block. -/
def ProgAct.Fits (s : Prog) : ProgAct → Prop
  | .malloc n _ => s.Fits n
  | _ => True

/-! ## The free list -/

variable {L : Layout} {s : Prog} {S : Finset ℕ} {p q bp : ℕ}

theorem plus_eq {k : ℕ} (h : L.InHeap p k) : plus p k = p + 4 * k := by
  have := L.heap_lt
  obtain ⟨-, -, hle⟩ := h
  exact Nat.mod_eq_of_lt (by omega)

namespace ListApart

theorem ne_base (h : ListApart L s S) (hbp : (s.alloc bp).isSome) : bp ≠ L.base := by
  intro heq
  rw [heq, h.disjoint _ h.base_mem] at hbp
  exact absurd hbp (by simp)

theorem notMem (h : ListApart L s S) (hbp : (s.alloc bp).isSome) : bp ∉ S := by
  intro hmem
  rw [h.disjoint bp hmem] at hbp
  exact absurd hbp (by simp)

/-- Only the links of the list and the sizes of the blocks count. -/
theorem congr {m : Mem} (h : ListApart L s S) (hptr : ∀ x ∈ S, m.ptr x = s.mem.ptr x)
    (hsize : ∀ x, x ∈ S ∨ (s.alloc x).isSome → m.size x = s.mem.size x)
    (hfreep : m.freep = s.mem.freep) : ListApart L { s with mem := m } S where
  ring := h.ring.congr hptr
  freep_mem := by
    change m.freep ∈ S
    rw [hfreep]
    exact h.freep_mem
  base_mem := h.base_mem
  size_base := (hsize _ (Or.inl h.base_mem)).trans h.size_base
  disjoint := h.disjoint
  inHeap x hx hne := by
    change L.InHeap x (m.size x)
    rw [hsize x hx]
    exact h.inHeap x hx hne
  apart x y hx hy hlt := by
    change x + 4 * m.size x ≤ y
    rw [hsize x hx]
    exact h.apart x y hx hy hlt
  bytes x n hx := by
    change n + 4 ≤ 4 * m.size x
    rw [hsize x (Or.inr (Option.isSome_of_eq_some hx))]
    exact h.bytes x n hx

/-- A block of the program is linked in. -/
theorem insert (h : ListApart L s S) (hbp : (s.alloc bp).isSome) (hp : p ∈ S)
    (hbetween : Between s.mem.ptr p bp) :
    ListApart L
      { mem := { s.mem with
          ptr := update (update s.mem.ptr bp (s.mem.ptr p)) p bp
          freep := p }
        alloc := update s.alloc bp none } (Insert.insert bp S) := by
  have hnot := h.notMem hbp
  have hpb : p ≠ bp := ne_of_mem_of_not_mem hp hnot
  -- the blocks are the same as before
  have hblock : ∀ x, x ∈ Insert.insert bp S ∨ (update s.alloc bp none x).isSome ↔
      x ∈ S ∨ (s.alloc x).isSome := by
    intro x
    by_cases hx : x = bp
    · subst hx
      simp [hbp]
    · simp [hx]
  refine ⟨?_, Finset.mem_insert_of_mem hp, Finset.mem_insert_of_mem h.base_mem, h.size_base, ?_,
    ?_, ?_, ?_⟩
  · refine h.ring.insert hp hnot hbetween (update_self ..) ?_ fun y hy hyp => ?_
    · change update (update s.mem.ptr bp (s.mem.ptr p)) p bp bp = _
      rw [update_of_ne hpb.symm, update_self]
    · change update (update s.mem.ptr bp (s.mem.ptr p)) p bp y = _
      rw [update_of_ne hyp, update_of_ne (ne_of_mem_of_not_mem hy hnot)]
  · intro x hx
    change update s.alloc bp none x = none
    rcases Finset.mem_insert.mp hx with rfl | hx
    · exact update_self ..
    · rw [update_of_ne (ne_of_mem_of_not_mem hx hnot)]
      exact h.disjoint x hx
  · intro x hx hne
    exact h.inHeap x ((hblock x).mp hx) hne
  · intro x y hx hy hlt
    exact h.apart x y ((hblock x).mp hx) ((hblock y).mp hy) hlt
  · intro x n hx
    change update s.alloc bp none x = some n at hx
    by_cases hxb : x = bp
    · rw [hxb, update_self] at hx
      exact absurd hx (by simp)
    · rw [update_of_ne hxb] at hx
      exact h.bytes x n hx

/-- A block is joined to the one before it in the list. -/
theorem join (h : ListApart L s S) (hp : p ∈ S) (hq : s.mem.ptr p = q) (hqbase : q ≠ L.base)
    (hadj : p + 4 * s.mem.size p = q) (hfreep : s.mem.freep ≠ q) :
    ListApart L
      { s with mem := { s.mem with
          ptr := update s.mem.ptr p (s.mem.ptr q)
          size := update s.mem.size p (s.mem.size p + s.mem.size q) } } (S.erase q) := by
  have hqS : q ∈ S := hq ▸ h.ring.next_mem p hp
  -- both are blocks of the heap, side by side
  have hpbase : p ≠ L.base := by
    rintro rfl
    rw [h.size_base] at hadj
    exact hqbase hadj.symm
  have hpHeap := h.inHeap p (Or.inl hp) hpbase
  have hqHeap := h.inHeap q (Or.inl hqS) hqbase
  obtain ⟨hp₁, hp₂, hp₃⟩ := hpHeap
  obtain ⟨hq₁, hq₂, hq₃⟩ := hqHeap
  have hpq : p < q := by omega
  have hqnot := h.disjoint q hqS
  -- the blocks left are others than `q`
  have hblock : ∀ x, x ∈ S.erase q ∨ (s.alloc x).isSome →
      (x ∈ S ∨ (s.alloc x).isSome) ∧ x ≠ q := by
    rintro x (hx | hx)
    · exact ⟨Or.inl (Finset.mem_of_mem_erase hx), Finset.ne_of_mem_erase hx⟩
    · refine ⟨Or.inr hx, ?_⟩
      rintro rfl
      rw [hqnot] at hx
      exact absurd hx (by simp)
  -- the fields of `ListApart`, for the list without `q`
  refine ⟨?_, Finset.mem_erase.mpr ⟨hfreep, h.freep_mem⟩,
    Finset.mem_erase.mpr ⟨hqbase.symm, h.base_mem⟩, ?_, ?_, ?_, ?_, ?_⟩
  -- the ring closes over `q`
  · refine h.ring.erase hp hq (by omega) (update_self ..) fun z hz hzp hzq => ?_
    exact update_of_ne hzp ..
  · exact (update_of_ne hpbase.symm ..).trans h.size_base
  · exact fun x hx => h.disjoint x (Finset.mem_of_mem_erase hx)
  · intro x hx hne
    change L.InHeap x (update s.mem.size p (s.mem.size p + s.mem.size q) x)
    -- `p` has grown up to where `q` ended
    by_cases hxp : x = p
    · rw [hxp, update_self]
      exact ⟨hp₁, by omega, by omega⟩
    · rw [update_of_ne hxp]
      exact h.inHeap x (hblock x hx).1 hne
  · intro x y hx hy hlt
    change x + 4 * update s.mem.size p (s.mem.size p + s.mem.size q) x ≤ y
    obtain ⟨hyb, hyq⟩ := hblock y hy
    by_cases hxp : x = p
    · -- a block behind `p` is behind `q` too
      rw [hxp] at hlt ⊢
      rw [update_self]
      have hpy := h.apart p y (Or.inl hp) hyb hlt
      have hqy := h.apart q y (Or.inl hqS) hyb (by omega)
      omega
    · rw [update_of_ne hxp]
      exact h.apart x y (hblock x hx).1 hyb hlt
  -- the allocated blocks are as they were
  · intro x n hx
    change n + 4 ≤ 4 * update s.mem.size p (s.mem.size p + s.mem.size q) x
    have hxp : x ≠ p := by
      rintro rfl
      rw [h.disjoint x hp] at hx
      exact absurd hx (by simp)
    rw [update_of_ne hxp]
    exact h.bytes x n hx

/-- A block ends where the next one in the list begins, if one of the list begins there at all. -/
theorem next_of_adjacent (h : ListApart L s S) (hp : p ∈ S) (hq : q ∈ S) (hne : p ≠ q)
    (hadj : p + 4 * s.mem.size p = q) : s.mem.ptr p = q := by
  have hlt : p < q := by omega
  have hmem := h.ring.next_mem p hp
  rcases h.ring.next_or_wrap p hp with ⟨hup, hleast⟩ | hwrap
  · have hle := hleast q hq hlt
    have hge := h.apart p (s.mem.ptr p) (Or.inl hp) (Or.inl hmem) hup
    omega
  · exact absurd (hwrap q hq).1 (not_le.mpr hlt)

end ListApart

/-- A block that ends where a new one begins can only be the one that it is put behind. -/
theorem ListApart.eq_of_adjacent_insert (h : ListApart L s S) (hbp : (s.alloc bp).isSome)
    (hp : p ∈ S) (hbetween : Between s.mem.ptr p bp) :
    (∀ x ∈ S, x + 4 * s.mem.size x = bp → x = p) ∧
      ∀ y ∈ S, bp + 4 * s.mem.size bp = y → y = s.mem.ptr p := by
  have hins := h.insert hbp hp hbetween
  have hnot := h.notMem hbp
  constructor
  · intro x hx hadj
    by_contra hxp
    have hxb := ne_of_mem_of_not_mem hx hnot
    have hnext := hins.next_of_adjacent (Finset.mem_insert_of_mem hx)
      (Finset.mem_insert_self bp S) hxb hadj
    change update (update s.mem.ptr bp (s.mem.ptr p)) p bp x = bp at hnext
    rw [update_of_ne hxp, update_of_ne hxb] at hnext
    exact hnot (hnext ▸ h.ring.next_mem x hx)
  · intro y hy hadj
    have hpb : p ≠ bp := ne_of_mem_of_not_mem hp hnot
    have hyb := ne_of_mem_of_not_mem hy hnot
    have hnext := hins.next_of_adjacent (Finset.mem_insert_self bp S)
      (Finset.mem_insert_of_mem hy) hyb.symm hadj
    change update (update s.mem.ptr bp (s.mem.ptr p)) p bp bp = y at hnext
    rw [update_of_ne hpb.symm, update_self] at hnext
    exact hnext.symm

/-- What `linkNext` makes of the list, if `p` is then linked to `bp`: only `p` can end where the
next block of the list begins. -/
theorem ListOk.linkNext (h : ListOk L s S) (hbp : (s.alloc bp).isSome) (hp : p ∈ S)
    (hbetween : Between s.mem.ptr p bp) {m : Mem} (hm : linkNext s.mem p bp = m) :
    ∃ S', ListApart L
        { mem := { m with ptr := update m.ptr p bp, freep := p }
          alloc := update s.alloc bp none } S' ∧
      p ∈ S' ∧ bp ∈ S' ∧
      ∀ x ∈ S', ∀ y ∈ S', x + 4 * m.size x = y → x = y ∨ x = p ∧ y = bp := by
  -- first the block goes in as it is, then it may take over its successor
  have hins := h.insert hbp hp hbetween
  have hnot := h.notMem hbp
  have hpb : p ≠ bp := ne_of_mem_of_not_mem hp hnot
  obtain ⟨hleft, hright⟩ := h.eq_of_adjacent_insert hbp hp hbetween
  have hbase := h.ne_base hbp
  have hbpHeap := h.inHeap bp (Or.inr hbp) hbase
  obtain ⟨hb₁, hb₂, hb₃⟩ := hbpHeap
  obtain ⟨q, hq⟩ : ∃ q, s.mem.ptr p = q := ⟨_, rfl⟩
  have hqS : q ∈ S := hq ▸ h.ring.next_mem p hp
  have hqb : q ≠ bp := ne_of_mem_of_not_mem hqS hnot
  unfold Ulib.linkNext at hm
  rw [plus_eq ⟨hb₁, hb₂, hb₃⟩] at hm
  rw [hq] at hins hright hm
  by_cases hadj : bp + 4 * s.mem.size bp = q
  · -- `bp` takes over the block behind it
    -- the block behind is no base
    have hqbase : q ≠ L.base := by
      have := L.apart
      omega
    have hqHeap := h.inHeap q (Or.inl hqS) hqbase
    obtain ⟨hq₁, hq₂, hq₃⟩ := hqHeap
    -- nor is it `p`
    have hpq : p ≠ q := by
      rintro rfl
      rcases h.ring.next_or_wrap p hp with ⟨hup, -⟩ | hwrap
      · omega
      · have := hwrap L.base h.base_mem
        omega
    have hjoin := hins.join (Finset.mem_insert_self bp S) (q := q)
      (by
        change update (update s.mem.ptr bp q) p bp bp = q
        rw [update_of_ne hpb.symm, update_self]) hqbase hadj hpq
    simp only [if_pos hadj] at hm
    subst hm
    refine ⟨_, ?_, Finset.mem_erase.mpr ⟨hpq, Finset.mem_insert_of_mem hp⟩,
      Finset.mem_erase.mpr ⟨hqb.symm, Finset.mem_insert_self bp S⟩, ?_⟩
    -- the sizes add up without a carry, since both lie in the heap
    · have hlt := L.heap_lt
      have hsize : (s.mem.size bp + s.mem.size q) % 65536 = s.mem.size bp + s.mem.size q :=
        Nat.mod_eq_of_lt (by omega)
      have hptr : update (update s.mem.ptr bp (s.mem.ptr q)) p bp =
          update (update (update s.mem.ptr bp q) p bp) bp
            (update (update s.mem.ptr bp q) p bp q) := by
        rw [update_of_ne hpq.symm, update_of_ne hqb, update_comm hpb, update_idem]
      rw [hsize, hptr]
      exact hjoin
    · -- behind `q` no block of the list begins, because the list was coalesced
      intro x hx y hy hxy
      obtain ⟨hyq, hy⟩ := Finset.mem_erase.mp hy
      obtain ⟨hxq, hx⟩ := Finset.mem_erase.mp hx
      change x + 4 * update s.mem.size bp _ x = y at hxy
      rcases Finset.mem_insert.mp hx with rfl | hxS
      · rw [update_self, Nat.mod_eq_of_lt (by have := L.heap_lt; omega)] at hxy
        rcases Finset.mem_insert.mp hy with rfl | hy
        · exact Or.inl rfl
        · exact absurd (h.coalesced q hqS y hy (by omega)).symm hyq
      · rw [update_of_ne (ne_of_mem_of_not_mem hxS hnot)] at hxy
        rcases Finset.mem_insert.mp hy with rfl | hyS
        · exact Or.inr ⟨hleft x hxS hxy, rfl⟩
        · exact Or.inl (h.coalesced x hxS y hyS hxy)
  · simp only [if_neg hadj] at hm
    subst hm
    -- nothing to take over
    refine ⟨_, hins, Finset.mem_insert_of_mem hp, Finset.mem_insert_self bp S, ?_⟩
    intro x hx y hy hxy
    change x + 4 * s.mem.size x = y at hxy
    -- two blocks side by side: only `p` and the new one can be
    rcases Finset.mem_insert.mp hx with rfl | hxS
    · rcases Finset.mem_insert.mp hy with rfl | hyS
      · exact Or.inl rfl
      · exact absurd (hxy.trans (hright y hyS hxy)) hadj
    · rcases Finset.mem_insert.mp hy with rfl | hyS
      · exact Or.inr ⟨hleft x hxS hxy, rfl⟩
      · exact Or.inl (h.coalesced x hxS y hyS hxy)

/-- `free` puts a block of the program into the list, if `p` is the place for it. -/
theorem ListOk.link (h : ListOk L s S) (hbp : (s.alloc bp).isSome) (hp : p ∈ S)
    (hbetween : Between s.mem.ptr p bp) :
    ∃ S', ListOk L { mem := link s.mem p bp, alloc := update s.alloc bp none } S' := by
  have hpb : p ≠ bp := ne_of_mem_of_not_mem hp (h.notMem hbp)
  obtain ⟨m, hm⟩ : ∃ m, Ulib.linkNext s.mem p bp = m := ⟨_, rfl⟩
  obtain ⟨S', happart, hpS', hbS', hadj⟩ := h.linkNext hbp hp hbetween hm
  have hbase := h.ne_base hbp
  -- `base` has no units, so it ends where it begins
  have hplus : plus p (m.size p) = p + 4 * m.size p := by
    by_cases hpbase : p = L.base
    · have hzero : m.size p = 0 := hpbase ▸ happart.size_base
      have := L.base_lt
      rw [hzero]
      exact Nat.mod_eq_of_lt (by omega)
    · exact plus_eq (happart.inHeap p (Or.inl hpS') hpbase)
  unfold Ulib.link linkPrev
  rw [hm, hplus]
  by_cases hprev : p + 4 * m.size p = bp
  · have hjoin := happart.join hpS' (q := bp) (update_self ..) hbase hprev hpb
    have hsize : (m.size p + m.size bp) % 65536 = m.size p + m.size bp := by
      have hbpHeap := happart.inHeap bp (Or.inl hbS') hbase
      obtain ⟨-, -, hb⟩ := hbpHeap
      have := L.heap_lt
      change bp + 4 * m.size bp ≤ _ at hb
      exact Nat.mod_eq_of_lt (by omega)
    rw [if_pos hprev, hsize]
    refine ⟨S'.erase bp, ?_, ?_⟩
    · have hptr : update m.ptr p (m.ptr bp) =
          update (update m.ptr p bp) p (update m.ptr p bp bp) := by
        rw [update_of_ne hpb.symm, update_idem]
      change ListApart L { mem := ⟨update m.ptr p (m.ptr bp), _, p⟩, alloc := _ } _
      rw [hptr]
      exact hjoin
    · intro x hx y hy hxy
      obtain ⟨hyb, hy⟩ := Finset.mem_erase.mp hy
      obtain ⟨hxb, hx⟩ := Finset.mem_erase.mp hx
      change x + 4 * update m.size p _ x = y at hxy
      by_cases hxp : x = p
      · -- what follows `bp` would have been adjacent to it
        rw [hxp, update_self] at hxy
        rcases hadj bp hbS' y hy (by omega) with heq | ⟨hbp', -⟩
        · exact absurd heq.symm hyb
        · exact absurd hbp'.symm hpb
      · rw [update_of_ne hxp] at hxy
        rcases hadj x hx y hy hxy with heq | ⟨hxp', -⟩
        · exact heq
        · exact absurd hxp' hxp
  · rw [if_neg hprev]
    refine ⟨S', happart, fun x hx y hy hxy => ?_⟩
    rcases hadj x hx y hy hxy with heq | ⟨rfl, rfl⟩
    · exact heq
    · exact absurd hxy hprev

/-! ## What `malloc` gives out -/

/-- No header of the list lies at address zero. -/
theorem ListApart.pos (h : ListApart L s S) {x : ℕ} (hx : x ∈ S ∨ (s.alloc x).isSome) :
    0 < x := by
  by_cases hbase : x = L.base
  · rw [hbase]
    exact L.base_pos
  · have := L.heap_pos
    obtain ⟨hle, -, -⟩ := h.inHeap x hx hbase
    omega

/-- A block that is now the program's was apart from what it had and is apart from the list. -/
theorem mallocOk_of_listApart {r : ℕ × Mem} {n : ℕ}
    (h : ListApart L { mem := r.2, alloc := update s.alloc r.1 (some n) } S)
    (hnew : s.alloc r.1 = none) (hsize : ∀ x, (s.alloc x).isSome → r.2.size x = s.mem.size x) :
    MallocOk L s n r := by
  have hr : (update s.alloc r.1 (some n) r.1).isSome := by rw [update_self]; rfl
  have hbytes : n + 4 ≤ 4 * r.2.size r.1 := h.bytes r.1 n (update_self ..)
  obtain ⟨hheap, -, hend⟩ := h.inHeap r.1 (Or.inr hr) (h.ne_base hr)
  change r.1 + 4 * r.2.size r.1 ≤ _ at hend
  -- any other block is before the new one or behind it
  have hclear : ∀ x, x ∈ S ∨ (update s.alloc r.1 (some n) x).isSome → x ≠ r.1 →
      x + 4 * r.2.size x ≤ r.1 ∨ r.1 + 4 * r.2.size r.1 ≤ x := by
    intro x hx hne
    rcases lt_or_gt_of_ne hne with hlt | hlt
    · exact Or.inl (h.apart x r.1 hx (Or.inr hr) hlt)
    · exact Or.inr (h.apart r.1 x (Or.inr hr) hx hlt)
  refine Or.inr ⟨by omega, by omega, fun x hx => ?_, fun k => ?_⟩
  · have hne : x ≠ r.1 := by
      rintro rfl
      rw [hnew] at hx
      exact absurd hx (by simp)
    have hx' : (update s.alloc r.1 (some n) x).isSome := by rwa [update_of_ne hne]
    have hcase := hclear x (Or.inr hx') hne
    rw [hsize x hx] at hcase
    unfold Clear
    omega
  · have hmem : r.2.ptr^[k] r.2.freep ∈ S := h.ring.iterate_mem h.freep_mem k
    have hne : r.2.ptr^[k] r.2.freep ≠ r.1 := ne_of_mem_of_not_mem hmem (h.notMem hr)
    have hcase := hclear _ (Or.inl hmem) hne
    unfold Clear
    rcases lt_or_gt_of_ne hne with hlt | hlt <;> omega

/-- A block of the right size is taken out of the list. -/
theorem ListOk.takeAll (h : ListOk L s S) (hp : p ∈ S) (hq : s.mem.ptr p = q) (hqbase : q ≠ L.base)
    {n : ℕ} (hn : n + 4 ≤ 4 * s.mem.size q) :
    ListOk L { mem := { s.mem with ptr := update s.mem.ptr p (s.mem.ptr q), freep := p }
               alloc := update s.alloc q (some n) } (S.erase q) := by
  have hqS : q ∈ S := hq ▸ h.ring.next_mem p hp
  obtain ⟨hq₁, hq₂, hq₃⟩ := h.inHeap q (Or.inl hqS) hqbase
  have hqp : q ≠ p := by
    rintro rfl
    rcases h.ring.next_or_wrap q hqS with ⟨hup, -⟩ | hwrap
    · omega
    · have := hwrap L.base h.base_mem
      omega
  have hblock : ∀ x, x ∈ S.erase q ∨ (update s.alloc q (some n) x).isSome ↔
      x ∈ S ∨ (s.alloc x).isSome := by
    intro x
    by_cases hx : x = q
    · simp [hx, hqS]
    · simp [hx]
  refine ⟨⟨?_, Finset.mem_erase.mpr ⟨hqp.symm, hp⟩,
    Finset.mem_erase.mpr ⟨hqbase.symm, h.base_mem⟩, h.size_base, ?_, ?_, ?_, ?_⟩, ?_⟩
  · refine h.ring.erase hp hq hqp (update_self ..) fun z hz hzp hzq => ?_
    exact update_of_ne hzp ..
  · intro x hx
    obtain ⟨hxq, hx⟩ := Finset.mem_erase.mp hx
    exact (update_of_ne hxq ..).trans (h.disjoint x hx)
  · exact fun x hx hne => h.inHeap x ((hblock x).mp hx) hne
  · exact fun x y hx hy hlt => h.apart x y ((hblock x).mp hx) ((hblock y).mp hy) hlt
  · intro x k hx
    change update s.alloc q (some n) x = some k at hx
    by_cases hxq : x = q
    · rw [hxq, update_self] at hx
      obtain rfl : n = k := Option.some.inj hx
      rwa [hxq]
    · rw [update_of_ne hxq] at hx
      exact h.bytes x k hx
  · exact fun x hx y hy hxy =>
      h.coalesced x (Finset.mem_of_mem_erase hx) y (Finset.mem_of_mem_erase hy) hxy

/-- No block begins inside of the block `q`. -/
theorem ListApart.not_inside (h : ListApart L s S) (hqS : q ∈ S) {b : ℕ} (hqb : q < b)
    (hb : b < q + 4 * s.mem.size q) : ¬(b ∈ S ∨ (s.alloc b).isSome) := by
  intro hmem
  have := h.apart q b (Or.inl hqS) hmem hqb
  omega

/-- Of a larger block the list keeps the lower end. -/
theorem ListOk.takeEnd (h : ListOk L s S) (hp : p ∈ S) (hqS : q ∈ S) (hqbase : q ≠ L.base)
    {nunits n b : ℕ} (hlt : nunits < s.mem.size q) (hpos : 1 ≤ nunits) (hn : n + 4 ≤ 4 * nunits)
    (hb : q + 4 * (s.mem.size q - nunits) = b) :
    ListOk L
      { mem := { s.mem with
          size := update (update s.mem.size q (s.mem.size q - nunits)) b nunits
          freep := p }
        alloc := update s.alloc b (some n) } S := by
  have hqnone := h.disjoint q hqS
  obtain ⟨hq₁, hq₂, hq₃⟩ := h.inHeap q (Or.inl hqS) hqbase
  have hqb : q ≠ b := by omega
  have hbnew := h.not_inside hqS (b := b) (by omega) (by omega)
  have hne : ∀ x, x ∈ S ∨ (s.alloc x).isSome → x ≠ b := fun x hx heq => hbnew (heq ▸ hx)
  -- the sizes: `q` has lost `nunits`, which are the new block at `b`
  have hsize : ∀ x, x ≠ b → x ≠ q →
      update (update s.mem.size q (s.mem.size q - nunits)) b nunits x = s.mem.size x :=
    fun x hxb hxq => by rw [update_of_ne hxb, update_of_ne hxq]
  have hsizeq : update (update s.mem.size q (s.mem.size q - nunits)) b nunits q =
      s.mem.size q - nunits := by
    rw [update_of_ne hqb, update_self]
  have hsizeb : update (update s.mem.size q (s.mem.size q - nunits)) b nunits b = nunits :=
    update_self ..
  generalize update (update s.mem.size q (s.mem.size q - nunits)) b nunits = size
    at hsize hsizeq hsizeb ⊢
  have hblock : ∀ x, x ∈ S ∨ (update s.alloc b (some n) x).isSome ↔
      x = b ∨ x ∈ S ∨ (s.alloc x).isSome := by
    intro x
    by_cases hx : x = b
    · simp [hx]
    · simp [hx]
  refine ⟨⟨h.ring, hp, h.base_mem, ?_, ?_, ?_, ?_, ?_⟩, ?_⟩
  · exact (hsize _ (hne _ (Or.inl h.base_mem)) hqbase.symm).trans h.size_base
  · intro x hx
    exact (update_of_ne (hne x (Or.inl hx)) ..).trans (h.disjoint x hx)
  · intro x hx hxbase
    change L.InHeap x (size x)
    rcases (hblock x).mp hx with rfl | hold
    · rw [hsizeb]
      exact ⟨by omega, hpos, by omega⟩
    · by_cases hxq : x = q
      · rw [hxq, hsizeq]
        exact ⟨hq₁, by omega, by omega⟩
      · rw [hsize x (hne x hold) hxq]
        exact h.inHeap x hold hxbase
  · intro x y hx hy hxy
    change x + 4 * size x ≤ y
    rcases (hblock x).mp hx with rfl | hxo
    · -- what is behind the new block was behind `q`
      rw [hsizeb]
      rcases (hblock y).mp hy with rfl | hyo
      · exact absurd hxy (lt_irrefl _)
      · have := h.apart q y (Or.inl hqS) hyo (by omega)
        omega
    · rcases (hblock y).mp hy with rfl | hyo
      · by_cases hxq : x = q
        · rw [hxq, hsizeq, hb]
        · rw [hsize x (hne x hxo) hxq]
          rcases lt_or_gt_of_ne hxq with hlt' | hlt'
          · have := h.apart x q hxo (Or.inl hqS) hlt'
            omega
          · have := h.apart q x (Or.inl hqS) hxo hlt'
            omega
      · have hold := h.apart x y hxo hyo hxy
        by_cases hxq : x = q
        · rw [hxq, hsizeq]
          rw [hxq] at hold
          omega
        · rwa [hsize x (hne x hxo) hxq]
  · intro x k hx
    change update s.alloc b (some n) x = some k at hx
    change k + 4 ≤ 4 * size x
    by_cases hxb : x = b
    · rw [hxb, update_self] at hx
      obtain rfl : n = k := Option.some.inj hx
      rwa [hxb, hsizeb]
    · rw [update_of_ne hxb] at hx
      have hxq : x ≠ q := by
        intro heq
        rw [heq, hqnone] at hx
        exact absurd hx (by simp)
      rw [hsize x hxb hxq]
      exact h.bytes x k hx
  · intro x hx y hy hxy
    change x + 4 * size x = y at hxy
    by_cases hxq : x = q
    · rw [hxq, hsizeq, hb] at hxy
      exact absurd hxy.symm (hne y (Or.inl hy))
    · rw [hsize x (hne x (Or.inl hx)) hxq] at hxy
      exact h.coalesced x hx y hy hxy

/-- `take` gives out the block `q` or its upper end. -/
theorem ListOk.take (h : ListOk L s S) (hp : p ∈ S) (hq : s.mem.ptr p = q) {nunits n : ℕ}
    (hfit : nunits ≤ s.mem.size q) (hpos : 1 ≤ nunits) (hn : n + 4 ≤ 4 * nunits) {r : ℕ × Mem}
    (hr : take s.mem nunits p q = r) :
    MallocOk L s n r ∧ r.1 ≠ 0 ∧
      ∃ S', ListOk L { mem := r.2, alloc := update s.alloc r.1 (some n) } S' := by
  have hqS : q ∈ S := hq ▸ h.ring.next_mem p hp
  have hqbase : q ≠ L.base := by
    rintro rfl
    rw [h.size_base] at hfit
    omega
  have hqnone := h.disjoint q hqS
  obtain ⟨hq₁, hq₂, hq₃⟩ := h.inHeap q (Or.inl hqS) hqbase
  unfold Ulib.take at hr
  by_cases hexact : s.mem.size q = nunits
  · -- the whole block is taken out of the list
    rw [if_pos hexact] at hr
    subst hr
    have hok := h.takeAll hp hq hqbase (n := n) (by rwa [hexact])
    exact ⟨mallocOk_of_listApart hok.toListApart hqnone fun _ _ => rfl,
      (h.pos (Or.inl hqS)).ne', _, hok⟩
  · -- the block keeps its place in the list and loses its upper end
    have hlt : nunits < s.mem.size q := lt_of_le_of_ne hfit (Ne.symm hexact)
    rw [if_neg hexact] at hr
    simp only [update_self] at hr
    rw [plus_eq ⟨hq₁, by omega, by omega⟩] at hr
    obtain ⟨b, hb⟩ : ∃ b, q + 4 * (s.mem.size q - nunits) = b := ⟨_, rfl⟩
    rw [hb] at hr
    subst hr
    have hok := h.takeEnd hp hqS hqbase hlt hpos hn hb
    obtain ⟨hbS, hbnone⟩ := not_or.mp (h.not_inside hqS (b := b) (by omega) (by omega))
    rw [Option.not_isSome_iff_eq_none] at hbnone
    refine ⟨mallocOk_of_listApart hok.toListApart hbnone fun x hx => ?_, by omega, _, hok⟩
    have hxb : x ≠ b := by
      rintro rfl
      rw [hbnone] at hx
      exact absurd hx (by simp)
    have hxq : x ≠ q := by
      rintro rfl
      rw [hqnone] at hx
      exact absurd hx (by simp)
    exact (update_of_ne hxb ..).trans (update_of_ne hxq ..)

/-! ## The loops -/

/-- The loop of `free` finds a place for the block, if it comes to an end. -/
theorem freeLoop_sound {m : Mem} {fuel x : ℕ} (hring : OrderRing m.ptr S) (hx : x ∈ S)
    (h : freeLoop m bp fuel x = some p) : p ∈ S ∧ Between m.ptr p bp := by
  induction fuel generalizing x with
  | zero => exact absurd h (by simp [freeLoop])
  | succ fuel ih =>
    unfold freeLoop at h
    split_ifs at h with hinside hwrap
    · obtain rfl : x = p := Option.some.inj h
      exact ⟨hx, Or.inl hinside⟩
    · obtain rfl : x = p := Option.some.inj h
      exact ⟨hx, Or.inr hwrap⟩
    · exact ih (hring.next_mem x hx) h

/-- With a place for the block ahead, the loop of `free` comes to an end. -/
theorem exists_freeLoop {m : Mem} {k x : ℕ} (h : Between m.ptr (m.ptr^[k] x) bp) :
    ∃ p, freeLoop m bp (k + 1) x = some p := by
  induction k generalizing x with
  | zero =>
    unfold freeLoop
    rcases h with hinside | hwrap
    · exact ⟨x, if_pos hinside⟩
    · split_ifs with h₁ h₂
      · exact ⟨x, rfl⟩
      · exact ⟨x, rfl⟩
      · exact absurd hwrap h₂
  | succ k ih =>
    unfold freeLoop
    split_ifs
    · exact ⟨x, rfl⟩
    · exact ⟨x, rfl⟩
    · exact ih h

/-- The loop of `malloc` takes the first block that is large enough, if it comes to one before it
is back at `freep`. -/
theorem mallocLoop_eq {m : Mem} {nunits k : ℕ} (prevp : ℕ)
    (hfit : nunits ≤ m.size (m.ptr^[k + 1] prevp))
    (hskip : ∀ i < k, ¬nunits ≤ m.size (m.ptr^[i + 1] prevp) ∧ m.ptr^[i + 1] prevp ≠ m.freep)
    (fuel : ℕ) :
    mallocLoop L nunits fuel m prevp (m.ptr prevp) =
      if k < fuel then some (take m nunits (m.ptr^[k] prevp) (m.ptr^[k + 1] prevp)) else none := by
  induction k generalizing prevp fuel with
  | zero =>
    cases fuel with
    | zero => rfl
    | succ fuel =>
      rw [if_pos (Nat.succ_pos fuel)]
      exact if_pos hfit
  | succ k ih =>
    cases fuel with
    | zero => rfl
    | succ fuel =>
      -- this block is too small, and not the last one
      have hsmall : ¬nunits ≤ m.size (m.ptr prevp) := (hskip 0 (Nat.succ_pos k)).1
      have hfreep : m.ptr prevp ≠ m.freep := (hskip 0 (Nat.succ_pos k)).2
      have hrest := ih (m.ptr prevp) hfit
        (fun i hi => hskip (i + 1) (Nat.succ_lt_succ hi)) fuel
      unfold mallocLoop
      rw [if_neg hsmall, if_neg hfreep, hrest]
      simp only [Nat.add_lt_add_iff_right, ← iterate_succ_apply]

/-- A block of the list that is large enough is found before the search is back at `freep`. -/
theorem exists_first_fit {m : Mem} {nunits : ℕ} (hring : OrderRing m.ptr S) (hfreep : m.freep ∈ S)
    (h : ∃ k, nunits ≤ m.size (m.ptr^[k] m.freep)) :
    ∃ k, nunits ≤ m.size (m.ptr^[k + 1] m.freep) ∧
      ∀ i < k, ¬nunits ≤ m.size (m.ptr^[i + 1] m.freep) ∧ m.ptr^[i + 1] m.freep ≠ m.freep := by
  -- `freep` itself comes last
  have hex : ∃ k, nunits ≤ m.size (m.ptr^[k + 1] m.freep) := by
    obtain ⟨k, hk⟩ := h
    obtain ⟨j, hj⟩ := hring.exists_iterate (hring.next_mem _ hfreep) (hring.iterate_mem hfreep k)
    exact ⟨j, by rwa [iterate_succ_apply, hj]⟩
  classical
  refine ⟨Nat.find hex, Nat.find_spec hex, fun i hi => ⟨Nat.find_min hex hi, fun hback => ?_⟩⟩
  -- being back at `freep` means that what was found is found earlier
  obtain ⟨j, hj⟩ := Nat.exists_eq_add_of_lt hi
  have hfound := Nat.find_spec hex
  have hsplit : Nat.find hex + 1 = (j + 1) + (i + 1) := by omega
  rw [hsplit, iterate_add_apply, hback] at hfound
  exact Nat.find_min hex (show j < Nat.find hex by omega) hfound

theorem units_bytes {n : ℕ} (hn : n + 3 < 65536) : 1 ≤ units n ∧ n + 4 ≤ 4 * units n := by
  unfold units
  omega

/-- `malloc` of a block that is there. -/
theorem ListOk.malloc (h : ListOk L s S) {n : ℕ} (hn : n + 3 < 65536)
    (hfit : ∃ k, units n ≤ s.mem.size (s.mem.ptr^[k] s.mem.freep)) :
    ∃ k r, (∀ fuel, malloc L fuel s.mem n = if k < fuel then some r else none) ∧
      MallocOk L s n r ∧ r.1 ≠ 0 ∧
      ∃ S', ListOk L { mem := r.2, alloc := update s.alloc r.1 (some n) } S' := by
  have hfreep : s.mem.freep ≠ 0 := (h.pos (Or.inl h.freep_mem)).ne'
  obtain ⟨k, hk, hskip⟩ := exists_first_fit h.ring h.freep_mem hfit
  obtain ⟨hpos, hbytes⟩ := units_bytes hn
  have htake := h.take (h.ring.iterate_mem h.freep_mem k) (iterate_succ_apply' ..).symm hk hpos
    hbytes rfl
  refine ⟨k, _, fun fuel => ?_, htake⟩
  unfold Ulib.malloc init
  rw [if_neg hfreep]
  exact mallocLoop_eq _ hk hskip fuel

/-- The list of `base` alone, when the heap is not in it. -/
theorem listOk_base {m : Mem} (hptr : m.ptr L.base = L.base) (hbase : m.size L.base = 0)
    (hheap : m.size L.heap = 4096) (hfreep : m.freep = L.base) :
    ListOk L { mem := m, alloc := update (fun _ => none) L.heap (some 0) } {L.base} := by
  have hapart := L.apart
  have hne : L.base ≠ L.heap := by omega
  -- there are two blocks
  have hblock : ∀ x, x ∈ ({L.base} : Finset ℕ) ∨
      (update (fun _ => none) L.heap (some 0) x : Option ℕ).isSome → x = L.base ∨ x = L.heap := by
    intro x hx
    by_cases hxh : x = L.heap
    · exact Or.inr hxh
    · rw [update_of_ne hxh] at hx
      refine Or.inl ?_
      simpa using hx
  refine ⟨⟨.singleton hptr, ?_, Finset.mem_singleton_self _, hbase, ?_, ?_, ?_, ?_⟩, ?_⟩
  · exact Finset.mem_singleton.mpr hfreep
  · intro x hx
    rw [Finset.mem_singleton.mp hx]
    exact update_of_ne hne (some 0) fun _ => none
  · intro x hx hxbase
    obtain rfl := (hblock x hx).resolve_left hxbase
    exact ⟨le_rfl, by rw [hheap]; decide, by rw [hheap]⟩
  · intro x y hx hy hxy
    change x + 4 * m.size x ≤ y
    rcases hblock x hx with rfl | rfl <;> rcases hblock y hy with rfl | rfl <;> omega
  · intro x n hx
    change update (fun _ => none) L.heap (some 0) x = some n at hx
    change n + 4 ≤ 4 * m.size x
    by_cases hxh : x = L.heap
    · rw [hxh, update_self] at hx
      obtain rfl : 0 = n := Option.some.inj hx
      rw [hxh, hheap]
      decide
    · rw [update_of_ne hxh] at hx
      exact absurd hx (by simp)
  · intro x hx y hy _
    rw [Finset.mem_singleton.mp hx, Finset.mem_singleton.mp hy]

/-- The first call of `malloc` makes the list. -/
theorem malloc_first (hfreep : s.mem.freep = 0) (halloc : ∀ x, s.alloc x = none) {n : ℕ}
    (hn : n + 3 < 65536) (hfit : units n ≤ 4096) :
    ∃ k r, (∀ fuel, Ulib.malloc L fuel s.mem n = if k < fuel then some r else none) ∧
      MallocOk L s n r ∧ r.1 ≠ 0 ∧
      ∃ S', ListOk L { mem := r.2, alloc := update s.alloc r.1 (some n) } S' := by
  obtain ⟨m₁, hm₁⟩ : ∃ m₁ : Mem, m₁ =
      { ptr := update s.mem.ptr L.base L.base
        size := update (update s.mem.size L.base 0) L.heap 4096
        freep := L.base } := ⟨_, rfl⟩
  have hapart := L.apart
  have hlt := L.heap_lt
  have hbaselt := L.base_lt
  have hne : L.base ≠ L.heap := by omega
  have hptr : m₁.ptr L.base = L.base := by
    rw [hm₁]
    exact update_self ..
  have hbase : m₁.size L.base = 0 := by
    rw [hm₁]
    exact (update_of_ne hne ..).trans (update_self ..)
  have hheap : m₁.size L.heap = 4096 := by
    rw [hm₁]
    exact update_self ..
  -- the heap is like a block that the program frees
  have hbetween : Between m₁.ptr L.base L.heap := Or.inr ⟨hptr.le, by omega⟩
  have hgiven : (update (fun _ => none) L.heap (some 0) L.heap : Option ℕ).isSome := by simp
  obtain ⟨S₁, hok⟩ := (listOk_base hptr hbase hheap (by rw [hm₁])).link hgiven
    (Finset.mem_singleton_self L.base) hbetween
  have hnone : update (update (fun _ => none) L.heap (some 0)) L.heap none = s.alloc := by
    funext x
    rw [update_idem, halloc x]
    by_cases hx : x = L.heap <;> simp [hx]
  simp only [hnone] at hok
  have hlink : link m₁ L.base L.heap =
      { ptr := update (update m₁.ptr L.heap L.base) L.base L.heap, size := m₁.size
        freep := L.base } := by
    have hnext : ¬plus L.heap (m₁.size L.heap) = m₁.ptr L.base := by
      rw [hheap, hptr, plus]
      omega
    have hprev : ¬plus L.base (m₁.size L.base) = L.heap := by
      rw [hbase, plus]
      omega
    have h₁ : linkNext m₁ L.base L.heap = { m₁ with ptr := update m₁.ptr L.heap (m₁.ptr L.base) } :=
      if_neg hnext
    have h₂ : linkPrev { m₁ with ptr := update m₁.ptr L.heap (m₁.ptr L.base) } L.base L.heap =
        { m₁ with ptr := update (update m₁.ptr L.heap (m₁.ptr L.base)) L.base L.heap } :=
      if_neg hprev
    rw [link, h₁, h₂, hptr]
  obtain ⟨m₂, hm₂⟩ : ∃ m₂, link m₁ L.base L.heap = m₂ := ⟨_, rfl⟩
  rw [hm₂] at hlink hok
  have hfreep₂ : m₂.freep = L.base := by rw [hlink]
  have hptr₂ : m₂.ptr L.base = L.heap := by
    rw [hlink]
    exact update_self ..
  have hheap₂ : m₂.size L.heap = 4096 := by rw [hlink, hheap]
  obtain ⟨hpos, hbytes⟩ := units_bytes hn
  obtain ⟨hmalloc, hr, hlist⟩ := hok.take (p := L.base) hok.base_mem hptr₂
    (hfit.trans_eq hheap₂.symm) hpos hbytes rfl
  refine ⟨1, _, fun fuel => ?_, ?_, hr, hlist⟩
  · have hinit : init L s.mem =
        { ptr := update s.mem.ptr L.base L.base, size := update s.mem.size L.base 0
          freep := L.base } := if_pos hfreep
    unfold Ulib.malloc
    rw [hinit]
    simp only [update_self]
    cases fuel with
    | zero => rfl
    | succ fuel =>
      -- `base` has no units, and behind it the search is back at `freep`
      unfold mallocLoop
      have hsmall : ¬units n ≤ 0 := by omega
      simp only [update_self, if_neg hsmall, if_true]
      have hmore : morecore L fuel
          { ptr := update s.mem.ptr L.base L.base, size := update s.mem.size L.base 0
            freep := L.base } = free fuel m₁ L.heap := by rw [hm₁]; rfl
      rw [hmore]
      cases fuel with
      | zero => rfl
      | succ fuel =>
        have hloop : freeLoop m₁ L.heap (fuel + 1) m₁.freep = some L.base := by
          have hfreep₁ : m₁.freep = L.base := by rw [hm₁]
          rw [hfreep₁]
          unfold freeLoop
          split_ifs with h₁ h₂
          · rfl
          · rfl
          · exact absurd hbetween (not_or.mpr ⟨h₁, h₂⟩)
        have hfree : free (fuel + 1) m₁ L.heap = some m₂ := by
          rw [free, hloop, ← hm₂]
          rfl
        have hbasepos : L.base ≠ 0 := L.base_pos.ne'
        rw [hfree, Option.bind_some, hfreep₂, if_neg hbasepos]
        have hfound : units n ≤ m₂.size (m₂.ptr^[0 + 1] L.base) := by
          change units n ≤ m₂.size (m₂.ptr L.base)
          rwa [hptr₂, hheap₂]
        rw [mallocLoop_eq _ hfound (fun i hi => absurd hi (Nat.not_lt_zero i)) (fuel + 1)]
        simp [hptr₂]
  · rcases hmalloc with hzero | ⟨hge, hle, -, hclear⟩
    · exact absurd hzero hr
    · exact Or.inr ⟨hge, hle, fun x hx => by simp [halloc x] at hx, hclear⟩

/-! ## Runs -/

/-- `malloc` does what it should, if it finds a block. -/
theorem HeapOk.malloc (h : HeapOk L s) {n : ℕ} (hfit : s.Fits n) :
    ∃ k r, (∀ fuel, Ulib.malloc L fuel s.mem n = if k < fuel then some r else none) ∧
      MallocOk L s n r ∧ r.1 ≠ 0 ∧
      ∃ S, ListOk L { mem := r.2, alloc := update s.alloc r.1 (some n) } S := by
  obtain ⟨hn, hfit⟩ := hfit
  rcases h with ⟨hfreep, halloc⟩ | ⟨S, hok⟩
  · rw [if_pos hfreep] at hfit
    exact malloc_first hfreep halloc hn hfit
  · have hfreep : s.mem.freep ≠ 0 := (hok.pos (Or.inl hok.freep_mem)).ne'
    rw [if_neg hfreep] at hfit
    exact hok.malloc hn hfit

/-- `free` comes to an end. -/
theorem HeapOk.free (h : HeapOk L s) (hbp : (s.alloc bp).isSome) :
    ∃ fuel m, Ulib.free fuel s.mem bp = some m := by
  rcases h with ⟨-, halloc⟩ | ⟨S, hok⟩
  · simp [halloc bp] at hbp
  · obtain ⟨p, hp, hbetween⟩ := hok.ring.exists_between ⟨_, hok.freep_mem⟩ (hok.notMem hbp)
    obtain ⟨k, rfl⟩ := hok.ring.exists_iterate hok.freep_mem hp
    obtain ⟨p, hp⟩ := exists_freeLoop hbetween
    exact ⟨k + 1, link s.mem p bp, by rw [Ulib.free, hp]; rfl⟩

/-- One action keeps the free list as it should be. -/
theorem HeapOk.step {a : ProgAct} {s' : Prog} (h : HeapOk L s) (ha : a.Fits s)
    (hs : s.step L a = some s') : HeapOk L s' := by
  -- by the call
  cases a with
  | malloc n fuel =>
    obtain ⟨-, hs⟩ := Option.ite_none_right_eq_some.mp hs
    obtain ⟨r, hr, rfl⟩ := Option.map_eq_some_iff.mp hs
    -- the fuel given is enough, so the result is the one of `malloc`
    obtain ⟨k, r', hmalloc, -, hne, hlist⟩ := h.malloc ha
    rw [hmalloc fuel] at hr
    obtain ⟨-, hr⟩ := Option.ite_none_right_eq_some.mp hr
    obtain rfl : r' = r := Option.some.inj hr
    rw [if_neg hne]
    exact Or.inr hlist
  | free bp fuel =>
    obtain ⟨hbp, hs⟩ := Option.ite_none_right_eq_some.mp hs
    obtain ⟨m, hm, rfl⟩ := Option.map_eq_some_iff.mp hs
    obtain ⟨p, hp, rfl⟩ := Option.map_eq_some_iff.mp hm
    -- before the first `malloc` nothing is allocated, so nothing is freed
    rcases h with ⟨-, halloc⟩ | ⟨S, hok⟩
    · simp [halloc bp] at hbp
    · obtain ⟨hpS, hbetween⟩ := freeLoop_sound hok.ring hok.freep_mem hp
      exact Or.inr (hok.link hbp hpS hbetween)
  -- the program writes into a block of its own
  | store bp a ptr size =>
    obtain ⟨⟨hbp, hlt, hend⟩, hs⟩ := Option.ite_none_right_eq_some.mp hs
    obtain rfl := Option.some.inj hs
    rcases h with ⟨-, halloc⟩ | ⟨S, hok⟩
    · simp [halloc bp] at hbp
    · -- no block begins inside of a block
      have hne : ∀ x, x ∈ S ∨ (s.alloc x).isSome → x ≠ a := by
        rintro x hx rfl
        have := hok.apart bp x (Or.inr hbp) hx hlt
        omega
      refine Or.inr ⟨S, hok.toListApart.congr (fun x hx => ?_) (fun x hx => ?_) rfl, ?_⟩
      · exact update_of_ne (hne x (Or.inl hx)) ..
      · exact update_of_ne (hne x hx) ..
      · intro x hx y hy hxy
        change x + 4 * update s.mem.size a size x = y at hxy
        rw [update_of_ne (hne x (Or.inl hx))] at hxy
        exact hok.coalesced x hx y hy hxy

/-- While every call of `malloc` finds a block, the free list stays as it should be, and `malloc`
and `free` return and do what they should. -/
theorem heap_safe_of_fits (h : Reachable (Prog.step L) (fun s a => a.Fits s) Prog.start s) :
    HeapOk L s ∧
      (∀ n, s.Fits n → ∃ fuel r, malloc L fuel s.mem n = some r ∧ MallocOk L s n r) ∧
      ∀ x, (s.alloc x).isSome → ∃ fuel m, free fuel s.mem x = some m := by
  have hok : HeapOk L s := by
    refine h.invariant (Or.inl ⟨rfl, fun _ => rfl⟩) ?_
    exact fun s a s' hs ha hstep => hs.step ha hstep
  refine ⟨hok, fun n hn => ?_, fun x hx => hok.free hx⟩
  obtain ⟨k, r, hmalloc, hr, -⟩ := hok.malloc hn
  exact ⟨k + 1, r, by rw [hmalloc, if_pos (Nat.lt_succ_self k)], hr⟩

/-- The static variables in the order of their declaration. -/
def Layout.declared : Layout := ⟨1000, 1006, by decide, by decide, by decide, by decide, by decide⟩

/-- After a call for 10 bytes. -/
theorem heap_safe_of_fits_ten :
    let s := (Prog.start.step .declared (.malloc 10 3)).getD Prog.start
    s.alloc 17374 = some 10 ∧
      HeapOk .declared s ∧
      (∀ n, s.Fits n → ∃ fuel r,
        malloc .declared fuel s.mem n = some r ∧ MallocOk .declared s n r) ∧
      ∀ x, (s.alloc x).isSome → ∃ fuel m, free fuel s.mem x = some m := by
  have hstep : (Prog.start.step .declared (.malloc 10 3)).isSome := by decide +kernel
  have hfits : Prog.start.Fits 10 := ⟨by decide, by
    rw [if_pos (show Prog.start.mem.freep = 0 from rfl)]
    decide⟩
  refine ⟨by decide +kernel, heap_safe_of_fits (Reachable.refl.tail (a := .malloc 10 3) hfits ?_)⟩
  rw [← Option.some_get hstep, Option.getD_some]

/-! ## When `morecore` is called again -/

/-- More fuel gives the same result. -/
theorem freeLoop_mono {m : Mem} {fuel fuel' x : ℕ} (hle : fuel ≤ fuel')
    (h : freeLoop m bp fuel x = some p) : freeLoop m bp fuel' x = some p := by
  induction fuel generalizing x fuel' with
  | zero => exact absurd h (by simp [freeLoop])
  | succ fuel ih =>
    obtain ⟨k, rfl⟩ := Nat.exists_eq_add_of_le hle
    rw [Nat.succ_add]
    unfold freeLoop at h ⊢
    split_ifs at h ⊢
    · exact h
    · exact h
    · exact ih (Nat.le_add_right fuel k) h

/-- More fuel gives the same result. -/
theorem mallocLoop_mono {m : Mem} {nunits fuel fuel' : ℕ} {r : ℕ × Mem} (hle : fuel ≤ fuel')
    (h : mallocLoop L nunits fuel m p q = some r) : mallocLoop L nunits fuel' m p q = some r := by
  induction fuel generalizing m p q fuel' with
  | zero => exact absurd h (by simp [mallocLoop])
  | succ fuel ih =>
    obtain ⟨k, rfl⟩ := Nat.exists_eq_add_of_le hle
    have hle' := Nat.le_add_right fuel k
    rw [Nat.succ_add]
    unfold mallocLoop at h ⊢
    split_ifs at h ⊢
    · exact h
    · obtain ⟨m', hm', h⟩ := Option.bind_eq_some_iff.mp h
      obtain ⟨x, hx, rfl⟩ := Option.map_eq_some_iff.mp hm'
      refine Option.bind_eq_some_iff.mpr ⟨_, Option.map_eq_some_iff.mpr ⟨x, ?_, rfl⟩, ?_⟩
      · exact freeLoop_mono hle' hx
      · split_ifs at h ⊢
        · exact h
        · exact ih hle' h
    · exact ih hle' h

/-- What `malloc` does has nothing to do with the number of turns that it is allowed. -/
theorem malloc_unique {m : Mem} {n fuel fuel' : ℕ} {r r' : ℕ × Mem}
    (h : malloc L fuel m n = some r) (h' : malloc L fuel' m n = some r') : r = r' := by
  have hr := mallocLoop_mono (Nat.le_max_left fuel fuel') h
  have hr' := mallocLoop_mono (Nat.le_max_right fuel fuel') h'
  exact Option.some.inj (hr.symm.trans hr')

/-- The whole heap has been given out, and it is given out once more. -/
theorem heap_twice :
    ¬∀ (L : Layout) (s : Prog), Reachable (Prog.step L) (fun _ _ => True) Prog.start s →
      HeapSafe L s := by
  intro h
  -- the first call takes all units, the second one 2 of them
  have hfirst : (Prog.start.step .declared (.malloc 16380 3)).isSome := by decide +kernel
  have hgot : (Prog.start.step .declared (.malloc 16380 3)).map
      (fun s => (s.alloc 1006, s.mem.size 1006)) = some (some 16380, 4096) := by decide +kernel
  have hsecond : ((Prog.start.step .declared (.malloc 16380 3)).bind
      fun s => (malloc .declared 3 s.mem 4).map Prod.fst) = some 17382 := by decide +kernel
  obtain ⟨s, hs⟩ := Option.isSome_iff_exists.mp hfirst
  rw [hs, Option.map_some, Option.some_inj, Prod.mk.injEq] at hgot
  rw [hs, Option.bind_some] at hsecond
  obtain ⟨-, hmalloc, -⟩ := h .declared s (Reachable.refl.tail trivial hs)
  obtain ⟨fuel, r, hr, hok⟩ := hmalloc 4 (by decide)
  obtain ⟨r', hr', hfst⟩ := Option.map_eq_some_iff.mp hsecond
  obtain rfl := malloc_unique hr hr'
  rcases hok with hzero | ⟨-, -, hclear, -⟩
  · omega
  · have hover := hclear 1006 (by rw [hgot.1]; rfl)
    rw [hgot.2, hfst] at hover
    revert hover
    unfold Clear
    decide

end UnixV6.Ulib
