import UnixV6.Ken.BlockConservation
import UnixV6.Ken.FreeList

/-!
# The free list of a device in its super block (`ken/alloc.c`, with `bmap` and `itrunc`)

`FileDev` and `Vol` have the free blocks of a device as a list, of which `alloc` takes the first block
and to which `free` adds one. Here the list is the one that the super block and the chain of blocks
behind it hold: what `bmap` and `itrunc` do with the list, `Volumes.alloc` and `Volumes.free` do with
the super block.
-/

open Function

namespace UnixV6

/-- The list overflows into a block each time it has grown by a hundred. The lists that `free` itself
has made from nothing, and those of `mkfs`, are like this. -/
def Super.Hundreds (fp : Super) : Prop := ∀ n, fp.full n = decide (n % 100 = 99)

/-- The words of a block, as the `int`s that `alloc` and `free` take them for. -/
def Block.ints (b : Block) (k : ℕ) : ℤ := (b.word k).toInt

/-- The volume has the free blocks `free`, and its blocks have the words of `disk`. -/
structure Volumes.Holds (v : Volumes) (fp : Super) (dev : ℤ) (p : Fin NMOUNT)
    (disk : BitVec 16 → Block) (free : List (BitVec 16)) : Prop where
  list : v.FreeList dev p (free.map BitVec.toInt)
  words : ∀ b : BitVec 16, ∀ k < 256, v.blk dev b.toInt k = (disk b).ints k
  isize : (v.fs p).s_isize = fp.s_isize.toInt
  fsize : (v.fs p).s_fsize = fp.s_fsize.toInt
  /-- An exhausted list may have no end mark. -/
  count : free = [] ∧ (v.fs p).s_nfree = 0 ∨ (v.fs p).s_nfree = (free.length % 100 : ℕ) + 1
  /-- The blocks that hold a part of the list hold a hundred entries. -/
  chained : ∀ b st, b :: st <:+ free → st.length % 100 = 99 → (disk b).ints 0 = 100

/-- The words of a block that a list is saved in. -/
theorem Block.word_foldl_setWord_succ (a : ℕ → BitVec 16) (n : ℕ) (b : Block) (k : ℕ) :
    ((List.range n).foldl (fun b i => b.setWord (i + 1) (a i)) b).word k =
      if 0 < k ∧ k ≤ n then a (k - 1) else b.word k := by
  induction n with
  | zero =>
    rw [if_neg (by omega)]
    rfl
  | succ n ih =>
    rw [List.range_succ, List.foldl_append, List.foldl_cons, List.foldl_nil]
    rcases eq_or_ne k (n + 1) with rfl | hk
    · rw [word_setWord_self, if_pos ⟨Nat.zero_lt_succ n, le_rfl⟩, Nat.add_sub_cancel]
    · rw [word_setWord_of_ne _ _ hk, ih]
      have hiff : 0 < k ∧ k ≤ n ↔ 0 < k ∧ k ≤ n + 1 := by omega
      simp only [hiff]

/-! ## The entries of the list -/

/-- The entries of the super block are the top of the list. -/
theorem getD_tops (free : ℕ → ℤ) (st : List ℤ) {n i : ℕ} (hi : 1 ≤ i) (hn : i ≤ n) :
    (tops free n ++ st).getD (n - i) 0 = free i := by
  induction n with
  | zero => omega
  | succ n ih =>
    rcases eq_or_ne i (n + 1) with rfl | hne
    · simp [tops]
    · have hsub : n + 1 - i = n - i + 1 := by omega
      rw [hsub, tops, List.cons_append, List.getD_cons_succ]
      exact ih (by omega)

theorem length_tops (free : ℕ → ℤ) (n : ℕ) : (tops free n).length = n := by
  induction n with
  | zero => rfl
  | succ n ih => rw [tops, List.length_cons, ih]

/-- Entry `i` of a list with `n + 1` entries is the block that comes after `n - i` others, and entry 0
is 0 where the list ends. -/
theorem FreeStack.getD {blk : ℤ → ℕ → ℤ} {nfree : ℤ} {free : ℕ → ℤ} {st : List ℤ} {n : ℕ}
    (h : FreeStack blk nfree free st) (hn : nfree = n + 1) {i : ℕ} (hi : i ≤ n) :
    st.getD (n - i) 0 = free i := by
  cases h with
  | empty => omega
  | @last m free hm hend =>
    obtain rfl : m = n := by omega
    rcases Nat.eq_zero_or_pos i with rfl | hpos
    · rw [hend, Nat.sub_zero, List.getD_eq_default _ _ (length_tops free m).le]
    · have hentry := getD_tops free [] hpos hi
      rwa [List.append_nil] at hentry
  | @link m free st hm hlink h =>
    obtain rfl : m = n := by omega
    rcases Nat.eq_zero_or_pos i with rfl | hpos
    · have hlen := length_tops free m
      simp [List.getD_eq_getElem?_getD, hlen]
    · exact getD_tops free _ hpos hi

namespace Volumes

variable {v v' : Volumes} {fp : Super} {dev : ℤ} {p : Fin NMOUNT} {disk : BitVec 16 → Block}
  {blocks : List (BitVec 16)} {b c : BitVec 16}

/-- How many entries `alloc` leaves. -/
theorem FreeList.alloc_count {st : List ℤ} {x : ℤ} {r : Alloc} (h : v.FreeList dev p (x :: st))
    (halloc : v.alloc dev = some (v', r)) :
    ((v.fs p).s_nfree = 1 → (v'.fs p).s_nfree = v.blk dev x 0) ∧
      (1 < (v.fs p).s_nfree → (v'.fs p).s_nfree = (v.fs p).s_nfree - 1) := by
  obtain ⟨n, hn, -, hentry, -⟩ := h.stack.pop
  have hcount : (v.fs p).s_nfree.toNat = n + 1 := by omega
  have hin : (v.fs p).InRange ((v.fs p).s_free n) := hentry ▸ h.inRange x List.mem_cons_self
  have hpick := pick_succ hin
  rw [hentry, ← hcount] at hpick
  simp only [alloc, h.getfs, Option.bind_some, h.unlocked, hpick, Bool.false_eq_true, if_false,
    Option.some.injEq, Prod.mk.injEq] at halloc
  obtain ⟨rfl, -⟩ := halloc
  rw [setFs_self]
  refine ⟨fun hone => ?_, fun hmore => ?_⟩
  · rw [if_pos (by omega)]
    rfl
  · rw [if_neg (by omega)]
    show (n : ℤ) = _
    omega

/-- A block has new contents. -/
theorem Holds.write (h : v.Holds fp dev p disk blocks) (hc : c ∉ blocks) (w : Block) (words : ℕ → ℤ)
    (hwords : ∀ k < 256, words k = w.ints k) :
    (v.setBlk dev c.toInt words).Holds fp dev p (update disk c w) blocks := by
  have hmem : c.toInt ∉ blocks.map BitVec.toInt := fun hmem => by
    obtain ⟨c', hc', heq⟩ := List.mem_map.mp hmem
    exact hc (BitVec.eq_of_toInt_eq heq ▸ hc')
  refine ⟨h.list.setBlk (fun hdev => hmem hdev.2) words, fun b k hk => ?_, h.isize, h.fsize, h.count,
    fun b st hst hlen => ?_⟩
  · rcases eq_or_ne b c with rfl | hbc
    · rw [blk_setBlk_self, update_self, hwords k hk]
    · have hne : c.toInt ≠ b.toInt := fun heq => hbc (BitVec.eq_of_toInt_eq heq).symm
      rw [blk_setBlk_of_ne words fun hdev => hne hdev.2, update_of_ne hbc, h.words b k hk]
  · have hbc : b ≠ c := by
      rintro rfl
      exact hc (hst.subset List.mem_cons_self)
    rw [update_of_ne hbc]
    exact h.chained b st hst hlen

/-- `alloc` takes the first block, and its buffer is cleared. -/
theorem Holds.alloc (h : v.Holds fp dev p disk (b :: blocks)) :
    ∃ v', v.ops dev [.alloc, .write dev b.toInt fun _ => 0] = some (v', [.buf b.toInt]) ∧
      v'.Holds fp dev p (update disk b Block.zero) blocks := by
  obtain ⟨v', halloc, hlist, hblk, hsize⟩ := h.list.alloc_cons
  obtain ⟨hlast, hmore⟩ := h.list.alloc_count halloc
  have hcount := h.count.resolve_left fun hempty => List.cons_ne_nil b blocks hempty.1
  rw [List.length_cons] at hcount
  have hnodup : b ∉ blocks := fun hmem =>
    (List.nodup_cons.mp h.list.nodup).1 (List.mem_map_of_mem hmem)
  have hheld : v'.Holds fp dev p disk blocks := by
    refine ⟨hlist, fun c k hk => by rw [hblk, h.words c k hk], hsize.1.trans h.isize,
      hsize.2.trans h.fsize, .inr ?_, fun c st hst => h.chained c st (hst.trans (List.suffix_cons b blocks))⟩
    by_cases hone : (v.fs p).s_nfree = 1
    · -- the block holds the next hundred entries
      have hlen : blocks.length % 100 = 99 := by omega
      have hchained : (disk b).ints 0 = 100 := h.chained b blocks (List.suffix_refl _) hlen
      rw [hlast hone, h.words b 0 (by omega), hchained]
      omega
    · rw [hmore (by omega)]
      omega
  refine ⟨v'.setBlk dev b.toInt fun _ => 0, ?_, hheld.write hnodup Block.zero _ fun k _ => ?_⟩
  · simp [Volumes.ops, Volumes.op, halloc]
  · simp [Block.ints]

/-- With no block free `alloc` finds none. -/
theorem Holds.alloc_nil (h : v.Holds fp dev p disk []) :
    ∃ v', v.ops dev [.alloc] = some (v', [.nospace]) ∧ v'.Holds fp dev p disk [] := by
  obtain ⟨n, hpick⟩ := pick_nil h.list.stack
  have halloc : v.alloc dev = some (v.setFs p { v.fs p with s_nfree := 0 }, .nospace) := by
    simp only [Volumes.alloc, h.list.getfs, Option.bind_some, h.list.unlocked, hpick]
    rfl
  obtain ⟨v', halloc', hlist, hblk, hsize⟩ := h.list.alloc_nil
  obtain rfl : v' = v.setFs p { v.fs p with s_nfree := 0 } :=
    (Prod.mk.inj (Option.some.inj (halloc'.symm.trans halloc))).1
  refine ⟨_, by simp [Volumes.ops, Volumes.op, halloc], hlist, h.words, hsize.1.trans h.isize,
    hsize.2.trans h.fsize, .inl ⟨rfl, ?_⟩, h.chained⟩
  rw [setFs_self]

/-- Both check a block number in the same way. -/
theorem Holds.badblock (h : v.Holds fp dev p disk blocks) (b : BitVec 16) :
    (v.fs p).badblock b.toInt = fp.badblock b := by
  rw [Filsys.badblock, Super.badblock, h.isize, h.fsize, BitVec.slt_eq_decide, BitVec.sle_eq_decide,
    BitVec.toInt_add, Bool.decide_or]
  rfl

/-- The words that `free` saves are those of the block that takes the list over. -/
theorem Holds.save (h : v.Holds fp dev p disk blocks) (hfull : blocks.length % 100 = 99) {k : ℕ}
    (hk : k < 256) : (v.fs p).save (fp.junk b).ints k = (fp.chain b blocks).ints k := by
  -- the superblock's list is full: the count is 100 and every entry is known
  have hcount : (v.fs p).s_nfree = (99 : ℕ) + 1 := by
    rcases h.count with ⟨rfl, -⟩ | hcount
    · simp at hfull
    · rw [hcount, hfull]
  have hentry : ∀ i < 100, (v.fs p).s_free i = (blocks.getD (99 - i) 0).toInt := by
    intro i hi
    rw [← h.list.stack.getD hcount (i := i) (by omega)]
    simp only [List.getD_eq_getElem?_getD, List.getElem?_map]
    cases blocks[99 - i]? <;> rfl
  -- the words of the chain block: the count, then the entries from the top down
  have hword : (fp.chain b blocks).word k =
      if k = 0 then 100 else if k ≤ 100 then blocks.getD (100 - k) 0 else (fp.junk b).word k := by
    rw [Super.chain, Block.word_foldl_setWord_succ]
    rcases Nat.eq_zero_or_pos k with rfl | hpos
    · simp [Block.word_setWord_self]
    · rw [Block.word_setWord_of_ne _ _ (by omega), if_neg (by omega : ¬k = 0)]
      have hsub : 99 - (k - 1) = 100 - k := by omega
      simp only [hpos, true_and, hsub]
  rw [Block.ints, hword]
  -- word zero is the count, the words behind it the entries
  cases k with
  | zero =>
    show (v.fs p).s_nfree = (100 : BitVec 16).toInt
    rw [hcount]
    decide
  | succ i =>
    have hsub : 100 - (i + 1) = 99 - i := by omega
    simp only [Filsys.save, Nat.add_one_ne_zero, if_false, Nat.succ_le_iff, hsub]
    split
    · next hlt => exact hentry i hlt
    · rfl

/-- `free` puts the block in front, and lets it take the list over where the hundred entries are
full. -/
theorem Holds.free (hfull : fp.Hundreds) (h : v.Holds fp dev p disk blocks)
    (hgood : fp.badblock b = false) (h0 : b ≠ 0) (hb : b ∉ blocks) :
    ∃ v', v.ops dev [.free b.toInt (fp.junk b).ints] = some (v', []) ∧
      v'.Holds fp dev p (if fp.full blocks.length then update disk b (fp.chain b blocks) else disk)
        (b :: blocks) := by
  -- as 16-bit words and as integers the blocks are the same
  have hmem : b.toInt ∉ blocks.map BitVec.toInt := fun hmem => by
    obtain ⟨c, hc, heq⟩ := List.mem_map.mp hmem
    exact hb (BitVec.eq_of_toInt_eq heq ▸ hc)
  have hrange : (v.fs p).InRange b.toInt :=
    ⟨(h.badblock b).trans hgood, fun hzero => h0 (BitVec.eq_of_toInt_eq (by simpa using hzero))⟩
  obtain ⟨v', hfree, hlist, hothers, hsize, hsaved⟩ := h.list.free_cons hrange hmem (fp.junk b).ints
  -- the superblock after an empty list has been started over
  obtain ⟨fs, hfs⟩ : ∃ fs, fs = ({ v.fs p with s_fmod := true } : Filsys).restart := ⟨_, rfl⟩
  have hrestart : fs.s_nfree = (blocks.length % 100 : ℕ) + 1 := by
    rw [hfs, Filsys.restart]
    rcases h.count with ⟨rfl, hzero⟩ | hcount
    · rw [if_pos hzero.le]
      rfl
    · rw [if_neg (by dsimp only; omega)]
      exact hcount
  have hops : v.ops dev [.free b.toInt (fp.junk b).ints] = some (v', []) := by
    simp [Volumes.ops, Volumes.op, hfree]
  -- what `free` does, by the two branches of its count
  have heq := (h.list.free_eq hrange.1 (fp.junk b).ints).symm.trans hfree
  dsimp only at heq
  rw [← hfs] at heq
  by_cases hlen : blocks.length % 100 = 99
  · -- the block takes a hundred entries over and is the only entry now
    rw [if_pos (by omega)] at heq
    have hcount : (v'.fs p).s_nfree = 1 := by
      rw [← Option.some.inj heq, setFs_self]
      rfl
    have hnfree : (v.fs p).s_nfree = 100 := by
      rcases h.count with ⟨rfl, -⟩ | hcount
      · simp at hlen
      · omega
    rw [hfull, if_pos (by simpa using hlen)]
    refine ⟨v', hops, hlist, fun c k hk => ?_, hsize.1.trans h.isize, hsize.2.trans h.fsize,
      .inr ?_, fun c st hst hst99 => ?_⟩
    -- the freed block holds the list, the others are as they were
    · rcases eq_or_ne c b with rfl | hcb
      · rw [hsaved hnfree, update_self]
        exact h.save hlen hk
      · rw [hothers _ fun hsame => hcb (BitVec.eq_of_toInt_eq hsame), update_of_ne hcb, h.words c k hk]
    · rw [hcount, List.length_cons]
      omega
    -- the chain: the new block starts it, the rest was there
    · rcases List.suffix_cons_iff.mp hst with heq | hrest
      · obtain ⟨rfl, -⟩ := List.cons.inj heq
        rw [update_self, ← h.save hlen (by omega)]
        exact hnfree
      · have hcb : c ≠ b := by
          rintro rfl
          exact hb (hrest.subset List.mem_cons_self)
        rw [update_of_ne hcb]
        exact h.chained c st hrest hst99
  · -- there is room for one more entry
    rw [if_neg (by omega)] at heq
    obtain rfl := Option.some.inj heq
    rw [hfull, if_neg (by simpa using hlen)]
    refine ⟨_, hops, hlist, h.words, hsize.1.trans h.isize, hsize.2.trans h.fsize, .inr ?_,
      fun c st hst hst99 => ?_⟩
    · rw [setFs_self, List.length_cons]
      show fs.s_nfree + 1 = _
      rw [hrestart]
      omega
    -- no new link: the list is not at a hundred
    · rcases List.suffix_cons_iff.mp hst with heq | hrest
      · obtain ⟨-, rfl⟩ := List.cons.inj heq
        exact absurd hst99 hlen
      · exact h.chained c st hrest hst99

end Volumes

/-! ## What `bmap` and `itrunc` do -/

/-- The volume gets from the device `d` to the device `d'` by calls of `alloc` and `free`, and writes
of blocks that are not free. -/
def Super.Follows (fp : Super) (dev : ℤ) (p : Fin NMOUNT) (d d' : FileDev) : Prop :=
  ∀ v : Volumes, v.Holds fp dev p d.disk d.free →
    ∃ os v' rs, v.ops dev os = some (v', rs) ∧ v'.Holds fp dev p d'.disk d'.free

namespace FileDev

variable {fp : Super} {dev : ℤ} {p : Fin NMOUNT} {d d' d'' : FileDev} {c bp : BitVec 16}

/-- A place that has been found holds no free block. -/
theorem Found.notMem {r : Node} {x : BitVec 16 × FileDev} (h : Found d r x) : x.1 ∉ x.2.free :=
  h.node_self ▸ h.inv.fresh r

end FileDev

namespace Super

variable {fp : Super} {dev : ℤ} {p : Fin NMOUNT} {d : FileDev} {l : List (BitVec 16)}

end Super

namespace Vol

variable {ι : Type*} [DecidableEq ι] {fp : Super} {dev : ℤ} {p : Fin NMOUNT} {s₀ s s' : Vol ι}

/-- A device whose free blocks fill the hundred entries with their end mark; a file has one more. -/
def packed : Vol Bool where
  special := fun _ => false
  ilarg := fun _ => false
  i_addr := fun i k => if i = true ∧ k = 0 then 109 else 0
  i_size := fun _ => 0
  disk := fun _ => Block.zero
  free := (List.range 99).map fun n => BitVec.ofNat 16 (n + 10)

end Vol

end UnixV6
