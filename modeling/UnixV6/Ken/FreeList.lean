import UnixV6.Ken.Alloc

/-!
# The free list is a stack

`FreeStack` reads the list off the super block and the chain of blocks that hold the rest of it.
`alloc` and `free` are pop and push on that list, however often it overflows into a block and is
loaded from it again.
-/

open Function

namespace UnixV6

/-! ## The list that a super block and its chain hold -/

/-- Entries `n` down to 1. -/
def tops (free : ℕ → ℤ) : ℕ → List ℤ
  | 0 => []
  | n + 1 => free (n + 1) :: tops free n

/-- The free blocks of a list with `nfree` entries `free`, the next one first. Entry 0 is the end
mark, or a free block whose words are the list that goes on below it. -/
inductive FreeStack (blk : ℤ → ℕ → ℤ) : ℤ → (ℕ → ℤ) → List ℤ → Prop
  | empty (free : ℕ → ℤ) : FreeStack blk 0 free []
  | last {n : ℕ} {free : ℕ → ℤ} (hn : n < 100) (hend : free 0 = 0) :
      FreeStack blk (n + 1) free (tops free n)
  | link {n : ℕ} {free : ℕ → ℤ} {st : List ℤ} (hn : n < 100) (hlink : free 0 ≠ 0)
      (h : FreeStack blk (blk (free 0) 0) (fun i => blk (free 0) (i + 1)) st) :
      FreeStack blk (n + 1) free (tops free n ++ free 0 :: st)

theorem tops_congr {f g : ℕ → ℤ} {n : ℕ} (h : ∀ i ≤ n, f i = g i) : tops f n = tops g n := by
  induction n with
  | zero => rfl
  | succ n ih =>
    rw [tops, tops, h (n + 1) le_rfl, ih fun i hi => h i (by omega)]

/-- A block is pushed. -/
theorem tops_update (f : ℕ → ℤ) (n : ℕ) (b : ℤ) :
    tops (update f (n + 1) b) (n + 1) = b :: tops f n := by
  rw [tops, update_self, tops_congr fun i hi => update_of_ne (by omega) b f]

namespace FreeStack

variable {blk blk' : ℤ → ℕ → ℤ} {nfree : ℤ} {free free' : ℕ → ℤ} {st : List ℤ}

theorem count (h : FreeStack blk nfree free st) : 0 ≤ nfree ∧ nfree ≤ 100 := by
  cases h <;> omega

/-- The list depends on the entries and on the first words of its own blocks only. -/
theorem congr (h : FreeStack blk nfree free st) (hfree : ∀ i < 100, free' i = free i)
    (hblk : ∀ b ∈ st, ∀ i ≤ 100, blk' b i = blk b i) : FreeStack blk' nfree free' st := by
  induction h generalizing free' with
  | empty free => exact .empty free'
  | @last n free hn hend =>
    rw [← tops_congr fun i hi => hfree i (by omega)]
    exact .last hn ((hfree 0 (by omega)).trans hend)
  | @link n free st hn hlink h ih =>
    have hzero : free' 0 = free 0 := hfree 0 (by omega)
    have hmem : free 0 ∈ tops free n ++ free 0 :: st := by simp
    rw [← tops_congr fun i hi => hfree i (by omega), ← hzero]
    refine .link hn (hzero ▸ hlink) ?_
    rw [hzero, hblk _ hmem 0 (by omega)]
    refine ih (fun i hi => hblk _ hmem (i + 1) (by omega)) fun b hb => hblk b ?_
    exact List.mem_append_right _ (List.mem_cons_of_mem _ hb)

/-- One more entry. -/
theorem push {n : ℕ} (h : FreeStack blk (n + 1) free st) (hn : n + 1 < 100) (b : ℤ) :
    FreeStack blk (n + 1 + 1) (update free (n + 1) b) (b :: st) := by
  have hzero : update free (n + 1) b 0 = free 0 := update_of_ne (by omega) b free
  generalize hm : (n + 1 : ℤ) = m at h
  cases h with
  | empty => omega
  | @last k _ _ hend =>
    obtain rfl : k = n := by omega
    rw [← tops_update, ← hm]
    exact_mod_cast FreeStack.last hn (hzero.trans hend)
  | @link k _ st _ hlink h =>
    obtain rfl : k = n := by omega
    rw [← List.cons_append, ← tops_update, ← hzero, ← hm]
    refine mod_cast FreeStack.link hn (hzero ▸ hlink) ?_
    rwa [hzero]

/-- The list that begins with the block into which the rest has been saved. -/
theorem spill {b : ℤ} (h : FreeStack blk nfree free st) (hb : b ≠ 0) (hst : b ∉ st)
    (hcount : blk' b 0 = nfree) (hsaved : ∀ i < 100, blk' b (i + 1) = free i)
    (hblk : ∀ c, c ≠ b → blk' c = blk c) : FreeStack blk' 1 (update free 0 b) (b :: st) := by
  have hzero : update free 0 b 0 = b := update_self 0 b free
  have hrest : FreeStack blk' (blk' (update free 0 b 0) 0)
      (fun i => blk' (update free 0 b 0) (i + 1)) st := by
    rw [hzero, hcount]
    refine h.congr hsaved fun c hc i _ => ?_
    rw [hblk c fun hcb => hst (hcb ▸ hc)]
  have hlink := FreeStack.link (n := 0) (by omega) (by rwa [hzero]) hrest
  rwa [hzero] at hlink

/-- Entries that are not in use do not matter. -/
theorem congr_entries (h : FreeStack blk nfree free st)
    (hfree : ∀ i : ℕ, (i : ℤ) < nfree → free' i = free i) : FreeStack blk nfree free' st := by
  cases h with
  | empty => exact .empty free'
  | @last n _ hn hend =>
    have hall : ∀ i ≤ n, free' i = free i := fun i hi => hfree i (by omega)
    rw [← tops_congr hall]
    exact .last hn ((hall 0 (Nat.zero_le n)).trans hend)
  | @link n _ st hn hlink h =>
    have hall : ∀ i ≤ n, free' i = free i := fun i hi => hfree i (by omega)
    have hzero := hall 0 (Nat.zero_le n)
    rw [← tops_congr hall, ← hzero]
    refine .link hn (hzero ▸ hlink) ?_
    rwa [hzero]

/-- The first block is the last entry; where it is the only one, its words are the rest. -/
theorem pop {b : ℤ} (h : FreeStack blk nfree free (b :: st)) :
    ∃ n : ℕ, nfree = n + 1 ∧ n < 100 ∧ free n = b ∧
      ((n = 0 ∧ FreeStack blk (blk b 0) (fun i => blk b (i + 1)) st) ∨
        (0 < n ∧ FreeStack blk n free st)) := by
  generalize hst : b :: st = st' at h
  cases h with
  | empty => cases hst
  | @last n _ hn hend =>
    cases n with
    | zero => cases hst
    | succ n =>
      obtain ⟨rfl, rfl⟩ := List.cons.inj hst
      exact ⟨n + 1, rfl, hn, rfl, .inr ⟨by omega, mod_cast FreeStack.last (by omega) hend⟩⟩
  | @link n _ st' hn hlink h =>
    cases n with
    | zero =>
      obtain ⟨rfl, rfl⟩ := List.cons.inj hst
      exact ⟨0, rfl, hn, rfl, .inl ⟨rfl, h⟩⟩
    | succ n =>
      obtain ⟨rfl, rfl⟩ := List.cons.inj hst
      exact ⟨n + 1, rfl, hn, rfl, .inr ⟨by omega, mod_cast FreeStack.link (by omega) hlink h⟩⟩

/-- An empty list has at most the end mark as its entry. -/
theorem of_nil (h : FreeStack blk nfree free []) : nfree = 0 ∨ nfree = 1 ∧ free 0 = 0 := by
  generalize hst : ([] : List ℤ) = st at h
  cases h with
  | empty => exact .inl rfl
  | @last n _ hn hend =>
    cases n with
    | zero => exact .inr ⟨rfl, hend⟩
    | succ n => cases hst
  | link => simp at hst
end FreeStack

/-! ## The two calls -/

/-- A block that the list may hold. Only on a volume with a negative `s_isize` does the range take
in block 0. -/
def Filsys.InRange (fp : Filsys) (b : ℤ) : Prop :=
  fp.badblock b = false ∧ b ≠ 0

/-- After `restart` there is an entry, and the list is the same. -/
theorem Filsys.stack_restart {fp : Filsys} {blk : ℤ → ℕ → ℤ} {st : List ℤ}
    (h : FreeStack blk fp.s_nfree fp.s_free st) :
    0 < fp.restart.s_nfree ∧ FreeStack blk fp.restart.s_nfree fp.restart.s_free st := by
  unfold Filsys.restart
  split
  · next hzero =>
    have hst : st = [] := by
      generalize fp.s_nfree = m at h hzero
      cases h with
      | empty => rfl
      | last => omega
      | link => omega
    subst hst
    exact ⟨one_pos, FreeStack.last (n := 0) (by omega) (update_self 0 0 fp.s_free)⟩
  · next hpos => exact ⟨by omega, h⟩

/-- Two super blocks of one volume. -/
def Filsys.SameSize (fp fp' : Filsys) : Prop :=
  fp.s_isize = fp'.s_isize ∧ fp.s_fsize = fp'.s_fsize

/-- Volumes of the same size have the same blocks. -/
theorem Filsys.SameSize.inRange {fp fp' : Filsys} {b : ℤ} (h : fp.SameSize fp')
    (hb : fp'.InRange b) : fp.InRange b := by
  unfold Filsys.InRange Filsys.badblock at hb ⊢
  rwa [h.1, h.2]

/-- The free blocks of `dev` are `st`, the next one first. -/
structure Volumes.FreeList (s : Volumes) (dev : ℤ) (p : Fin NMOUNT) (st : List ℤ) : Prop where
  mounted : s.find dev = some p
  unlocked : (s.fs p).s_flock = false
  counts : 0 ≤ (s.fs p).s_nfree ∧ (s.fs p).s_nfree ≤ 100 ∧ (s.fs p).s_ninode ≤ 100
  stack : FreeStack (s.blk dev) (s.fs p).s_nfree (s.fs p).s_free st
  nodup : st.Nodup
  inRange : ∀ b ∈ st, (s.fs p).InRange b

namespace Volumes

variable {s s' : Volumes} {dev d b : ℤ} {p : Fin NMOUNT} {st : List ℤ}

@[simp] theorem setFs_self (s : Volumes) (p : Fin NMOUNT) (fp : Filsys) : (s.setFs p fp).fs p = fp := by
  simp only [setFs, update_self]

@[simp] theorem find_setFs (s : Volumes) (p : Fin NMOUNT) (fp : Filsys) (dev : ℤ) :
    (s.setFs p fp).find dev = s.find dev := rfl

@[simp] theorem find_setBlk (s : Volumes) (d bno : ℤ) (words : ℕ → ℤ) (dev : ℤ) :
    (s.setBlk d bno words).find dev = s.find dev := rfl

@[simp] theorem blk_setFs (s : Volumes) (p : Fin NMOUNT) (fp : Filsys) :
    (s.setFs p fp).blk = s.blk := rfl

/-- The block that was written. -/
theorem blk_setBlk_self (s : Volumes) (dev bno : ℤ) (words : ℕ → ℤ) :
    (s.setBlk dev bno words).blk dev bno = words := by
  simp only [setBlk, update_self]

/-- The other blocks stay. -/
theorem blk_setBlk_of_ne {c : ℤ} (words : ℕ → ℤ) (h : ¬ (d = dev ∧ b = c)) :
    (s.setBlk d b words).blk dev c = s.blk dev c := by
  rcases eq_or_ne dev d with rfl | hdev
  · simp only [setBlk, update_self]
    exact update_of_ne (fun hc => h ⟨rfl, hc.symm⟩) _ _
  · simp only [setBlk, update_of_ne hdev]

theorem FreeList.checkCounts (h : s.FreeList dev p st) : (s.fs p).checkCounts = s.fs p := by
  obtain ⟨-, hfree, hinode⟩ := h.counts
  rw [Filsys.checkCounts, if_neg (by omega)]

theorem FreeList.getfs (h : s.FreeList dev p st) : s.getfs dev = some (p, s.fs p) := by
  rw [Volumes.getfs, h.mounted, Option.map_some, h.checkCounts]

/-- The same list in another state with the same entry for the device. -/
theorem FreeList.of_stack {fp : Filsys} (h : s.FreeList dev p st) {st' : List ℤ}
    (hfind : s'.find dev = s.find dev) (hfs : s'.fs p = fp)
    (hsize : fp.SameSize (s.fs p))
    (hrest : fp.s_flock = (s.fs p).s_flock ∧ fp.s_ninode = (s.fs p).s_ninode)
    (hstack : FreeStack (s'.blk dev) fp.s_nfree fp.s_free st') (hnodup : st'.Nodup)
    (hrange : ∀ b ∈ st', (s.fs p).InRange b) : s'.FreeList dev p st' := by
  subst hfs
  refine ⟨hfind.trans h.mounted, hrest.1.trans h.unlocked, ⟨hstack.count.1, hstack.count.2, ?_⟩,
    hstack, hnodup, fun b hb => hsize.inRange (hrange b hb)⟩
  rw [hrest.2]
  exact h.counts.2.2

/-- The loop of `alloc` stops at its first entry, since the list holds blocks in range only. -/
theorem pick_succ {fp : Filsys} {n : ℕ} (h : fp.InRange (fp.s_free n)) :
    fp.pick (n + 1) = ({ fp with s_nfree := n }, some (fp.s_free n)) := by
  obtain ⟨hgood, hzero⟩ := h
  unfold Filsys.pick
  rw [if_neg hzero]
  exact if_neg (by simpa [Filsys.badblock] using hgood)

/-- The loop of `alloc` on an exhausted list. -/
theorem pick_nil {fp : Filsys} {blk : ℤ → ℕ → ℤ} (h : FreeStack blk fp.s_nfree fp.s_free []) :
    ∃ n, fp.pick fp.s_nfree.toNat = ({ fp with s_nfree := n }, none) := by
  rcases h.of_nil with hzero | ⟨hone, hend⟩
  · have hcount : fp.s_nfree.toNat = 0 := by omega
    refine ⟨fp.s_nfree, ?_⟩
    rw [hcount]
    rfl
  · refine ⟨0, ?_⟩
    rw [hone]
    simp [Filsys.pick, hend]

/-- The loop of `alloc` on any other list: it takes the first block, and either there are entries
left or the words of that block are the rest of the list. -/
theorem pick_cons {fp : Filsys} {blk : ℤ → ℕ → ℤ}
    (h : FreeStack blk fp.s_nfree fp.s_free (b :: st)) (hb : fp.InRange b) :
    ∃ n : ℕ, fp.pick fp.s_nfree.toNat = ({ fp with s_nfree := n }, some b) ∧
      ((n = 0 ∧ FreeStack blk (blk b 0) (fun i => blk b (i + 1)) st) ∨
        (0 < n ∧ FreeStack blk n fp.s_free st)) := by
  obtain ⟨n, hn, -, hentry, hrest⟩ := h.pop
  refine ⟨n, ?_, hrest⟩
  have hcount : fp.s_nfree.toNat = n + 1 := by omega
  rw [← hentry] at hb ⊢
  rw [hcount]
  exact pick_succ hb

/-- An exhausted list: `NULL` and `ENOSPC`. -/
theorem FreeList.alloc_nil (h : s.FreeList dev p []) :
    ∃ s', s.alloc dev = some (s', .nospace) ∧ s'.FreeList dev p [] ∧ s'.blk = s.blk ∧
      (s'.fs p).SameSize (s.fs p) := by
  obtain ⟨n, hpick⟩ := pick_nil h.stack
  refine ⟨s.setFs p { s.fs p with s_nfree := 0 }, ?_, ?_, rfl, ?_⟩
  · simp only [alloc, h.getfs, Option.bind_some, h.unlocked, hpick]
    rfl
  · exact h.of_stack rfl (setFs_self s p _) ⟨rfl, rfl⟩ ⟨rfl, rfl⟩ (.empty _) List.nodup_nil
      h.inRange
  · rw [setFs_self]
    exact ⟨rfl, rfl⟩

/-- Otherwise the first block of the list, which may hold the rest of it. -/
theorem FreeList.alloc_cons (h : s.FreeList dev p (b :: st)) :
    ∃ s', s.alloc dev = some (s', .buf b) ∧ s'.FreeList dev p st ∧ s'.blk = s.blk ∧
      (s'.fs p).SameSize (s.fs p) := by
  obtain ⟨n, hpick, hrest⟩ := pick_cons h.stack (h.inRange b List.mem_cons_self)
  have hnodup := (List.nodup_cons.mp h.nodup).2
  have hrange : ∀ c ∈ st, (s.fs p).InRange c := fun c hc =>
    h.inRange c (List.mem_cons_of_mem b hc)
  rcases hrest with ⟨rfl, hstack⟩ | ⟨hn, hstack⟩
  · refine ⟨s.setFs p { ({ s.fs p with s_nfree := (0 : ℕ) }.reload (s.blk dev b)) with
      s_fmod := true }, ?_, ?_, rfl, ?_⟩
    · simp only [alloc, h.getfs, Option.bind_some, h.unlocked, hpick]
      rfl
    · refine h.of_stack rfl (setFs_self s p _) ⟨rfl, rfl⟩ ⟨rfl, rfl⟩ ?_ hnodup hrange
      exact hstack.congr (fun i hi => if_pos hi) fun c _ i _ => rfl
    · rw [setFs_self]
      exact ⟨rfl, rfl⟩
  · refine ⟨s.setFs p { s.fs p with
      s_nfree := n
      s_fmod := true }, ?_, ?_, rfl, ?_⟩
    · have hleft : ¬ (n : ℤ) ≤ 0 := by omega
      simp only [alloc, h.getfs, Option.bind_some, h.unlocked, hpick, if_neg hleft]
      rfl
    · exact h.of_stack rfl (setFs_self s p _) ⟨rfl, rfl⟩ ⟨rfl, rfl⟩ hstack hnodup hrange
    · rw [setFs_self]
      exact ⟨rfl, rfl⟩

/-- A list that starts again changes nothing else of the super block. -/
theorem restart_rest (fp : Filsys) :
    (fp.restart.s_isize = fp.s_isize ∧ fp.restart.s_fsize = fp.s_fsize) ∧
      fp.restart.s_flock = fp.s_flock ∧ fp.restart.s_ninode = fp.s_ninode := by
  unfold Filsys.restart
  split <;> exact ⟨⟨rfl, rfl⟩, rfl, rfl⟩

/-- `free` of a block in range, once the lock and the range have been looked at. -/
theorem FreeList.free_eq (h : s.FreeList dev p st) (hb : (s.fs p).badblock b = false)
    (junk : ℕ → ℤ) : s.free dev b junk =
      let fp := ({ s.fs p with s_fmod := true } : Filsys).restart
      if fp.s_nfree ≥ 100 then
        some ((s.setBlk dev b (fp.save junk)).setFs p ({ fp with s_nfree := 0 }.push b))
      else
        some (s.setFs p (fp.push b)) := by
  have hlock : ¬ (s.fs p).s_flock = true := by simp [h.unlocked]
  have hgood : ¬ (s.fs p).badblock b = true := by simp [hb]
  rw [free, h.getfs]
  exact (if_neg hlock).trans (if_neg hgood)

/-- A block that is put back is the first of the list; where the hundred entries are full, its
words are now the rest of the list. -/
theorem FreeList.free_cons (h : s.FreeList dev p st) (hb : (s.fs p).InRange b) (hst : b ∉ st)
    (junk : ℕ → ℤ) : ∃ s', s.free dev b junk = some s' ∧ s'.FreeList dev p (b :: st) ∧
      (∀ c, c ≠ b → s'.blk dev c = s.blk dev c) ∧ (s'.fs p).SameSize (s.fs p) ∧
      ((s.fs p).s_nfree = 100 → s'.blk dev b = (s.fs p).save junk) := by
  have hmod : FreeStack (s.blk dev) ({ s.fs p with s_fmod := true } : Filsys).s_nfree
      ({ s.fs p with s_fmod := true } : Filsys).s_free st := h.stack
  obtain ⟨hpos, hstack⟩ := Filsys.stack_restart hmod
  have hrest := restart_rest { s.fs p with s_fmod := true }
  have hfull : (s.fs p).s_nfree = 100 → ({ s.fs p with s_fmod := true } : Filsys).restart =
      { s.fs p with s_fmod := true } := fun hfull => if_neg (by simp [hfull])
  have hcount := hstack.count
  have hnodup : (b :: st).Nodup := List.nodup_cons.mpr ⟨hst, h.nodup⟩
  have hrange : ∀ c ∈ b :: st, (s.fs p).InRange c := by
    intro c hc
    rcases List.mem_cons.mp hc with rfl | hc
    · exact hb
    · exact h.inRange c hc
  obtain ⟨fp, hfp⟩ : ∃ fp, fp = ({ s.fs p with s_fmod := true } : Filsys).restart := ⟨_, rfl⟩
  rw [← hfp] at hpos hstack hrest hfull hcount
  by_cases hspill : fp.s_nfree ≥ 100
  · refine ⟨(s.setBlk dev b (fp.save junk)).setFs p ({ fp with s_nfree := 0 }.push b), ?_, ?_, ?_,
      ?_, ?_⟩
    · rw [h.free_eq hb.1 junk, ← hfp]
      exact if_pos hspill
    · refine h.of_stack (find_setFs _ p _ dev) (setFs_self _ p _) hrest.1 hrest.2 ?_ hnodup hrange
      -- the hundred entries are saved in the block, which becomes the only one
      have hcount : fp.s_nfree = 100 := by omega
      refine hstack.spill hb.2 hst ?_ (fun i hi => ?_) fun c hc => ?_
      · exact congrFun (blk_setBlk_self s dev b _) 0
      · exact (congrFun (blk_setBlk_self s dev b _) (i + 1)).trans (if_pos hi)
      · exact blk_setBlk_of_ne _ fun hbc => hc hbc.2.symm
    · exact fun c hc => blk_setBlk_of_ne _ fun hbc => hc hbc.2.symm
    · rw [setFs_self]
      exact hrest.1
    · intro hn
      rw [blk_setFs, blk_setBlk_self, hfull hn]
      rfl
  · refine ⟨s.setFs p (fp.push b), ?_, ?_, ?_, ?_, ?_⟩
    · rw [h.free_eq hb.1 junk, ← hfp]
      exact if_neg hspill
    · refine h.of_stack (find_setFs _ p _ dev) (setFs_self _ p _) hrest.1 hrest.2 ?_ hnodup hrange
      -- there is room for the entry
      obtain ⟨n, hn⟩ : ∃ n : ℕ, fp.s_nfree = n + 1 := ⟨(fp.s_nfree - 1).toNat, by omega⟩
      rw [hn] at hstack
      have htop : fp.s_nfree.toNat = n + 1 := by omega
      have hpush := hstack.push (by omega) b
      rw [← hn, ← htop] at hpush
      exact hpush
    · exact fun c _ => rfl
    · rw [setFs_self]
      exact hrest.1
    · intro hn
      rw [hfull hn] at hspill
      exact absurd hn.ge hspill

/-- New contents for a block that is not on the list. -/
theorem FreeList.setBlk (h : s.FreeList dev p st) (hb : ¬ (d = dev ∧ b ∈ st)) (words : ℕ → ℤ) :
    (s.setBlk d b words).FreeList dev p st := by
  have hkeep : ∀ c ∈ st, (s.setBlk d b words).blk dev c = s.blk dev c := fun c hc =>
    blk_setBlk_of_ne words fun hdb => hb ⟨hdb.1, hdb.2 ▸ hc⟩
  refine h.of_stack (find_setBlk s d b words dev) rfl ⟨rfl, rfl⟩ ⟨rfl, rfl⟩ ?_ h.nodup h.inRange
  exact h.stack.congr (fun _ _ => rfl) fun c hc i _ => congrFun (hkeep c hc) i

end Volumes

/-! ## Sequences of calls -/

namespace FsOp

/-- The same operation on a stack of free blocks. -/
def onStack : FsOp → List ℤ → List ℤ × Option Alloc
  | .alloc, [] => ([], some .nospace)
  | .alloc, b :: st => (st, some (.buf b))
  | .free bno _, st => (bno :: st, none)
  | .write _ _ _, st => (st, none)

/-- A block is freed only if it is in range and not free already, and written only if it is not
free. -/
def Legal (fp : Filsys) (dev : ℤ) (st : List ℤ) : FsOp → Prop
  | .alloc => True
  | .free bno _ => fp.InRange bno ∧ bno ∉ st
  | .write d bno _ => ¬ (d = dev ∧ bno ∈ st)

instance (fp : Filsys) (dev : ℤ) (st : List ℤ) : (o : FsOp) → Decidable (o.Legal fp dev st)
  | .alloc => inferInstanceAs (Decidable True)
  | .free bno _ => inferInstanceAs (Decidable ((_ ∧ bno ≠ 0) ∧ bno ∉ st))
  | .write d bno _ => inferInstanceAs (Decidable (¬ (d = dev ∧ bno ∈ st)))

end FsOp

/-- A sequence of operations on a stack of free blocks. -/
def stackOps : List FsOp → List ℤ → List ℤ × List Alloc
  | [], st => (st, [])
  | o :: os, st =>
    ((stackOps os (o.onStack st).1).1, (o.onStack st).2.toList ++ (stackOps os (o.onStack st).1).2)

/-- Every operation of a sequence is legal when its turn comes. -/
def LegalOps (fp : Filsys) (dev : ℤ) : List FsOp → List ℤ → Prop
  | [], _ => True
  | o :: os, st => o.Legal fp dev st ∧ LegalOps fp dev os (o.onStack st).1

instance decidableLegalOps (fp : Filsys) (dev : ℤ) :
    (os : List FsOp) → (st : List ℤ) → Decidable (LegalOps fp dev os st)
  | [], _ => inferInstanceAs (Decidable True)
  | o :: os, st =>
    have := decidableLegalOps fp dev os (o.onStack st).1
    inferInstanceAs (Decidable (_ ∧ _))

/-- What is in range stays in range along a run, so legality may be judged at its start. -/
theorem LegalOps.congr {fp fp' : Filsys} (h : fp'.SameSize fp) {dev : ℤ} {os : List FsOp}
    {st : List ℤ} (hos : LegalOps fp dev os st) :
    LegalOps fp' dev os st := by
  induction os generalizing st with
  | nil => trivial
  | cons o os ih =>
    refine ⟨?_, ih hos.2⟩
    cases o with
    | alloc => trivial
    | free bno junk => exact ⟨h.inRange hos.1.1, hos.1.2⟩
    | write d bno words => exact hos.1

namespace Volumes

variable {s s' : Volumes} {dev b : ℤ} {p : Fin NMOUNT} {st : List ℤ} {o : FsOp} {os : List FsOp}

/-- A block leaves the stack only through `alloc`. -/
theorem mem_onStack (hb : b ∈ st) (hkept : .buf b ∉ (o.onStack st).2.toList) :
    b ∈ (o.onStack st).1 := by
  cases o with
  | alloc =>
    cases st with
    | nil => exact hb
    | cons c st =>
      rcases List.mem_cons.mp hb with rfl | hb
      · simp [FsOp.onStack] at hkept
      · exact hb
  | free => exact List.mem_cons_of_mem _ hb
  | write => exact hb

/-- One operation does to the list what it does to the stack, and it leaves the blocks that stay on
the list alone. -/
theorem FreeList.op (h : s.FreeList dev p st) (ho : o.Legal (s.fs p) dev st) :
    ∃ s', s.op dev o = some (s', (o.onStack st).2) ∧ s'.FreeList dev p (o.onStack st).1 ∧
      (∀ b ∈ st, s'.blk dev b = s.blk dev b) ∧ (s'.fs p).SameSize (s.fs p) := by
  cases o with
  | alloc =>
    cases st with
    | nil =>
      obtain ⟨s', hs', hlist, hblk, hsize⟩ := h.alloc_nil
      exact ⟨s', by rw [Volumes.op, hs']; rfl, hlist, fun b _ => by rw [hblk], hsize⟩
    | cons b st =>
      obtain ⟨s', hs', hlist, hblk, hsize⟩ := h.alloc_cons
      exact ⟨s', by rw [Volumes.op, hs']; rfl, hlist, fun b _ => by rw [hblk], hsize⟩
  | free bno junk =>
    obtain ⟨s', hs', hlist, hblk, hsize, -⟩ := h.free_cons ho.1 ho.2 junk
    refine ⟨s', by rw [Volumes.op, hs']; rfl, hlist, fun b hb => hblk b ?_, hsize⟩
    exact fun heq => ho.2 (heq ▸ hb)
  | write d bno words =>
    refine ⟨s.setBlk d bno words, rfl, h.setBlk ho words, fun b hb => ?_, ⟨rfl, rfl⟩⟩
    exact blk_setBlk_of_ne words fun hdb => ho ⟨hdb.1, hdb.2 ▸ hb⟩

/-- The run lemma: a sequence of operations does to the list what it does to the stack. A block that
stays on the list all the time keeps its words. -/
theorem FreeList.ops (h : s.FreeList dev p st) (hos : LegalOps (s.fs p) dev os st) :
    ∃ s', s.ops dev os = some (s', (stackOps os st).2) ∧ s'.FreeList dev p (stackOps os st).1 ∧
      (∀ b ∈ st, .buf b ∉ (stackOps os st).2 → b ∈ (stackOps os st).1 ∧
        s'.blk dev b = s.blk dev b) ∧ (s'.fs p).SameSize (s.fs p) := by
  induction os generalizing s st with
  | nil => exact ⟨s, rfl, h, fun b hb _ => ⟨hb, rfl⟩, rfl, rfl⟩
  | cons o os ih =>
    obtain ⟨s₁, hs₁, hlist₁, hblk₁, hsize₁⟩ := h.op hos.1
    obtain ⟨s', hs', hlist, hblk, hsize⟩ := ih hlist₁ (hos.2.congr hsize₁)
    refine ⟨s', ?_, hlist, fun b hb hkept => ?_, hsize.1.trans hsize₁.1, hsize.2.trans hsize₁.2⟩
    · simp only [Volumes.ops, hs₁, Option.bind_some, hs', Option.map_some, stackOps]
    · rw [stackOps, List.mem_append, not_or] at hkept
      have hb₁ : b ∈ (o.onStack st).1 := mem_onStack hb hkept.1
      obtain ⟨hmem, hwords⟩ := hblk b hb₁ hkept.2
      exact ⟨hmem, hwords.trans (hblk₁ b hb)⟩

/-- A legal sequence in two parts. -/
theorem legalOps_append {fp : Filsys} {os₁ os₂ : List FsOp}
    (h : LegalOps fp dev (os₁ ++ os₂) st) :
    LegalOps fp dev os₁ st ∧ LegalOps fp dev os₂ (stackOps os₁ st).1 := by
  induction os₁ generalizing st with
  | nil => exact ⟨trivial, h⟩
  | cons o os₁ ih =>
    obtain ⟨h₁, h₂⟩ := ih h.2
    exact ⟨⟨h.1, h₁⟩, h₂⟩

/-- A sequence of calls in two parts. -/
theorem ops_append {os₁ : List FsOp} {rs : List Alloc} (os₂ : List FsOp)
    (h : s.ops dev os₁ = some (s', rs)) :
    s.ops dev (os₁ ++ os₂) = (s'.ops dev os₂).map fun (s, rs') => (s, rs ++ rs') := by
  induction os₁ generalizing s rs with
  | nil =>
    obtain ⟨rfl, rfl⟩ := Prod.mk.inj (Option.some.inj h)
    simp
  | cons o os₁ ih =>
    obtain ⟨⟨s₁, r⟩, hs₁, h⟩ := Option.bind_eq_some_iff.mp h
    obtain ⟨⟨s₂, rs₂⟩, hs₂, h⟩ := Option.map_eq_some_iff.mp h
    obtain ⟨rfl, rfl⟩ := Prod.mk.inj h
    simp [Volumes.ops, hs₁, ih hs₂, Function.comp_def]

/-- The free list of a volume is a stack: whatever the order of the calls, `alloc` returns what a
stack returns, with `ENOSPC` exactly when the stack is empty, and the list stays consistent. A block
into which `free` has saved the list still holds the count and the hundred numbers as long as it has
not been handed out. -/
theorem free_list_refines_stack (h : s.FreeList dev p st)
    (hos : LegalOps (s.fs p) dev os st) :
    ∃ s', s.ops dev os = some (s', (stackOps os st).2) ∧ s'.FreeList dev p (stackOps os st).1 ∧
      ∀ os₁ b junk os₂, os = os₁ ++ .free b junk :: os₂ →
        .buf b ∉ (stackOps os₂ (b :: (stackOps os₁ st).1)).2 →
        ∃ s₁ rs, s.ops dev os₁ = some (s₁, rs) ∧
          ((s₁.fs p).s_nfree = 100 → s'.blk dev b = (s₁.fs p).save junk) := by
  obtain ⟨s', hs', hlist, -⟩ := h.ops hos
  refine ⟨s', hs', hlist, ?_⟩
  rintro os₁ b junk os₂ rfl hkept
  obtain ⟨hos₁, ⟨hb, hst⟩, hos₂⟩ := legalOps_append hos
  obtain ⟨s₁, hs₁, hlist₁, -, hsize₁⟩ := h.ops hos₁
  obtain ⟨s₂, hs₂, hlist₂, -, hsize₂, hsaved⟩ := hlist₁.free_cons (hsize₁.inRange hb) hst junk
  have hop : s₁.op dev (.free b junk) = some (s₂, none) := by
    rw [Volumes.op, hs₂]
    rfl
  obtain ⟨s₃, hs₃, -, hwords, -⟩ :=
    hlist₂.ops (hos₂.congr ⟨hsize₂.1.trans hsize₁.1, hsize₂.2.trans hsize₁.2⟩)
  have hrun := ops_append (.free b junk :: os₂) hs₁
  simp only [hs', Volumes.ops, hop, Option.bind_some, hs₃, Option.map_some] at hrun
  obtain rfl : s' = s₃ := (Prod.mk.inj (Option.some.inj hrun)).1
  refine ⟨s₁, _, hs₁, fun hfull => ?_⟩
  rw [(hwords b List.mem_cons_self hkept).2]
  exact hsaved hfull

/-- A volume without free blocks. -/
def full : Volumes where
  m_bufp p := p = 0
  m_dev _ := 1
  fs _ :=
    { s_isize := 8
      s_fsize := 500
      s_nfree := 0
      s_free := fun _ => 0
      s_ninode := 0
      s_flock := false
      s_fmod := false }
  blk _ _ _ := 0

/-- More blocks than the super block has entries are freed, and then allocated again. -/
def freeAndAlloc : List FsOp :=
  (List.range 103).map (fun i => .free (10 + i) fun _ => 0) ++ List.replicate 104 .alloc

/-- More than a hundred blocks are freed and allocated. -/
theorem free_list_refines_stack_freeAndAlloc : ∃ s', full.ops 1 freeAndAlloc =
      some (s', (List.range 103).reverse.map (fun i => .buf (10 + i)) ++ [.nospace]) ∧
    s'.FreeList 1 0 [] := by
  have hlist : full.FreeList 1 0 [] :=
    ⟨by decide, rfl, by decide, .empty _, List.nodup_nil, by simp⟩
  have hlegal : LegalOps (full.fs 0) 1 freeAndAlloc [] := by decide +kernel
  obtain ⟨s', hs', hlist', -⟩ := free_list_refines_stack hlist hlegal
  have hstack : stackOps freeAndAlloc [] =
      ([], (List.range 103).reverse.map (fun i => .buf (10 + i)) ++ [.nospace]) := by
    decide +kernel
  rw [hstack] at hs' hlist'
  exact ⟨s', hs', hlist'⟩

end Volumes

end UnixV6
