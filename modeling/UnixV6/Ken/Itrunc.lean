import UnixV6.Ken.Bmap
import UnixV6.Lib.Run

/-!
# Block conservation (`itrunc` of `ken/iget.c`, with `bmap`)

The files of a device share its blocks and its free list. `itrunc` walks the tree of a file backwards,
from the word behind each 512-byte block; the buffers have a pad of two bytes there, which is the reason
that a block has bytes from 512 on here. While it walks, `free` writes the free list into blocks that it
gets.
-/

open Function

namespace UnixV6

/-- What `free` looks at besides the list. -/
structure Super where
  s_isize : BitVec 16
  s_fsize : BitVec 16
  /-- Whether the hundred entries of `s_free` are taken when the list has some length. -/
  full : ℕ → Bool
  /-- What `getblk` finds in the buffer for a block. -/
  junk : BitVec 16 → Block
  junk_pad : ∀ b k, 512 ≤ k → junk b k = 0

namespace Super

def badblock (fp : Super) (bn : BitVec 16) : Bool := bn.slt (fp.s_isize + 2) || fp.s_fsize.sle bn

/-- The block that takes `s_nfree` and the hundred entries of `s_free` over. -/
def chain (fp : Super) (bno : BitVec 16) (free : List (BitVec 16)) : Block :=
  (List.range 100).foldl (fun b i => b.setWord (i + 1) (free.getD (99 - i) 0))
    ((fp.junk bno).setWord 0 100)

def free (fp : Super) (s : FileDev) (bno : BitVec 16) : FileDev :=
  if fp.badblock bno then s
  else { s with
    disk := if fp.full s.free.length then update s.disk bno (fp.chain bno s.free) else s.disk
    free := bno :: s.free }

/-- The places of a block as a pointer that runs downwards meets them. -/
def down (n : ℕ) : List ℕ := (List.range n).reverse

/-- Free the blocks that a block points to: `ep` runs from the pad down. -/
def freeWords (fp : Super) (dp : BitVec 16) (s : FileDev) : FileDev :=
  (down 257).foldl (fun s k => if s.words dp k ≠ 0 then fp.free s (s.words dp k) else s) s

/-- The same for the indirect block in a place of the inode: `cp` runs from the pad down, and the
eighth place has indirect blocks under it. -/
def freeIndirect (fp : Super) (i : ℕ) (bp : BitVec 16) (s : FileDev) : FileDev :=
  (down 257).foldl (fun s k =>
    if s.words bp k ≠ 0 then
      let s := if i = 7 then fp.freeWords (s.words bp k) s else s
      fp.free s (s.words bp k)
    else s) s

/-- One place of the inode. -/
def freeAddr (fp : Super) (s : FileDev) (i : ℕ) : FileDev :=
  if s.i_addr i ≠ 0 then
    let s := if s.ilarg then fp.freeIndirect i (s.i_addr i) s else s
    let s := fp.free s (s.i_addr i)
    { s with i_addr := update s.i_addr i 0 }
  else s

/-- `itrunc` of a file that is no device. -/
def itrunc (fp : Super) (s : FileDev) : FileDev :=
  { (down 8).foldl fp.freeAddr s with ilarg := false, i_size := 0 }

end Super

/-! ## Blocks one after another -/

namespace Super

variable {fp : Super} {s : FileDev}

/-- `free` of the blocks of a list. -/
def frees (fp : Super) (l : List (BitVec 16)) (s : FileDev) : FileDev := l.foldl fp.free s

@[simp] theorem frees_nil (fp : Super) (s : FileDev) : fp.frees [] s = s := rfl

/-- Blocks are freed in their order. -/
theorem frees_append (l₁ l₂ : List (BitVec 16)) (s : FileDev) :
    fp.frees (l₁ ++ l₂) s = fp.frees l₂ (fp.frees l₁ s) := List.foldl_append

/-- One more block is freed. -/
theorem free_frees (l : List (BitVec 16)) (s : FileDev) (b : BitVec 16) :
    fp.free (fp.frees l s) b = fp.frees (l ++ [b]) s := by
  rw [frees_append]
  rfl

/-- `free` does not look at the inode. -/
theorem free_congr (s : FileDev) (b : BitVec 16) (a : ℕ → BitVec 16) :
    fp.free { s with i_addr := a } b = { fp.free s b with i_addr := a } := by
  unfold free
  split <;> rfl

/-- Freeing blocks does not look at the addresses. -/
theorem frees_congr (l : List (BitVec 16)) (s : FileDev) (a : ℕ → BitVec 16) :
    fp.frees l { s with i_addr := a } = { fp.frees l s with i_addr := a } := by
  induction l generalizing s with
  | nil => rfl
  | cons b l ih => exact (congrArg (fp.frees l) (free_congr s b a)).trans (ih (fp.free s b))

/-- The list grows by the blocks, only they are written, and the inode stays. -/
theorem frees_eq {l : List (BitVec 16)} (hl : ∀ b ∈ l, fp.badblock b = false) (s : FileDev) :
    (fp.frees l s).free = l.reverse ++ s.free ∧ (∀ c ∉ l, (fp.frees l s).disk c = s.disk c) ∧
      (fp.frees l s).ilarg = s.ilarg ∧ (fp.frees l s).i_addr = s.i_addr ∧
      (fp.frees l s).i_size = s.i_size := by
  induction l generalizing s with
  | nil => exact ⟨rfl, fun _ _ => rfl, rfl, rfl, rfl⟩
  | cons b l ih =>
    obtain ⟨hb, hl⟩ := List.forall_mem_cons.mp hl
    have hfree : fp.free s b = { s with
        disk := if fp.full s.free.length then update s.disk b (fp.chain b s.free) else s.disk
        free := b :: s.free } := if_neg (by simp [hb])
    obtain ⟨hlist, hdisk, hinode⟩ := ih hl (fp.free s b)
    rw [hfree] at hlist hdisk hinode
    have hcons : fp.frees (b :: l) s = fp.frees l (fp.free s b) := rfl
    rw [hcons, hfree]
    refine ⟨?_, fun c hc => ?_, hinode⟩
    · rw [hlist, List.reverse_cons, List.append_assoc]
      rfl
    · obtain ⟨hcb, hcl⟩ := not_or.mp (List.mem_cons.not.mp hc)
      rw [hdisk c hcl]
      dsimp only
      split
      · exact update_of_ne hcb ..
      · rfl

/-- A loop whose every turn frees some blocks. -/
theorem foldl_frees {κ : Type*} {f : FileDev → κ → FileDev} {blocks : κ → List (BitVec 16)}
    {l : List (BitVec 16)} {ks : List κ} (hnodup : (l ++ ks.flatMap blocks).Nodup)
    (hf : ∀ l', ∀ k ∈ ks, (l' ++ blocks k).Nodup → l' ++ blocks k ⊆ l ++ ks.flatMap blocks →
      f (fp.frees l' s) k = fp.frees (l' ++ blocks k) s) :
    ks.foldl f (fp.frees l s) = fp.frees (l ++ ks.flatMap blocks) s := by
  induction ks generalizing l with
  | nil => rw [List.flatMap_nil, List.append_nil, List.foldl_nil]
  | cons k ks ih =>
    have hassoc : l ++ (k :: ks).flatMap blocks = l ++ blocks k ++ ks.flatMap blocks := by
      rw [List.flatMap_cons, List.append_assoc]
    rw [hassoc] at hnodup ⊢
    rw [List.foldl_cons, hf l k List.mem_cons_self (List.Nodup.of_append_left hnodup)
      (hassoc ▸ List.subset_append_left ..)]
    refine ih hnodup fun l' k' hk' hnd hsub => hf l' k' (List.mem_cons_of_mem k hk') hnd ?_
    rw [hassoc]
    exact hsub

end Super

/-! ## The walk -/

namespace FileDev

/-- No buffer has anything in its pad. -/
def PadZero (s : FileDev) : Prop := ∀ b k, 512 ≤ k → s.disk b k = 0

/-- The words behind the block are 0. -/
theorem PadZero.words {s : FileDev} (h : s.PadZero) (b : BitVec 16) {k : ℕ} (hk : 256 ≤ k) :
    s.words b k = 0 := by
  have hlow := h b (2 * k) (by omega)
  have hhigh := h b (2 * k + 1) (by omega)
  simp [FileDev.words, Block.word, hlow, hhigh]

/-- A pointer, if it is one. -/
def pointer (w : BitVec 16) : List (BitVec 16) := if w ≠ 0 then [w] else []

theorem mem_pointer {w c : BitVec 16} : c ∈ pointer w ↔ c ≠ 0 ∧ w = c := by
  unfold pointer
  split
  · next h =>
    rw [List.mem_singleton]
    exact ⟨fun hc => ⟨hc ▸ h, hc.symm⟩, fun hc => hc.2.symm⟩
  · next h =>
    refine iff_of_false List.not_mem_nil ?_
    rintro ⟨hc, rfl⟩
    exact h hc

/-- The blocks that a block points to, from the last on. -/
def wordBlocks (s : FileDev) (b : BitVec 16) : List (BitVec 16) :=
  (Super.down 256).flatMap fun k => pointer (s.words b k)

/-- The blocks under an indirect block in a place of the inode. -/
def indirectBlocks (s : FileDev) (i : ℕ) (b : BitVec 16) : List (BitVec 16) :=
  if i = 7 then (Super.down 256).flatMap fun k =>
    if s.words b k ≠ 0 then s.wordBlocks (s.words b k) ++ [s.words b k] else []
  else s.wordBlocks b

/-- The blocks under a place of the inode. -/
def addrBlocks (s : FileDev) (i : ℕ) : List (BitVec 16) :=
  if s.i_addr i ≠ 0 then
    (if s.ilarg then s.indirectBlocks i (s.i_addr i) else []) ++ [s.i_addr i]
  else []

/-- All blocks of a file in the order in which they are freed. -/
def allBlocks (s : FileDev) : List (BitVec 16) := (Super.down 8).flatMap s.addrBlocks

end FileDev

namespace Super

variable {fp : Super} {s : FileDev} {l : List (BitVec 16)} {b : BitVec 16}

theorem down_succ (n : ℕ) : down (n + 1) = n :: down n := by
  simp [down, List.range_succ]

/-- A block that is not freed has its pointers still. -/
theorem words_frees (hl : ∀ c ∈ l, fp.badblock c = false) (hb : b ∉ l) (k : ℕ) :
    (fp.frees l s).words b k = s.words b k := by
  obtain ⟨-, hdisk, -⟩ := frees_eq hl s
  rw [FileDev.words, hdisk b hb]
  rfl

/-- An indirect block is read back to front; each block that it names is freed. -/
theorem freeWords_frees (hpad : s.PadZero) (hnodup : (l ++ s.wordBlocks b).Nodup)
    (hb : b ∉ l ++ s.wordBlocks b) (hok : ∀ c ∈ l ++ s.wordBlocks b, fp.badblock c = false) :
    fp.freeWords b (fp.frees l s) = fp.frees (l ++ s.wordBlocks b) s := by
  have hwords : ∀ l', l' ⊆ l ++ s.wordBlocks b → ∀ k,
      (fp.frees l' s).words b k = s.words b k := fun l' hsub k =>
    words_frees (fun c hc => hok c (hsub hc)) (fun hmem => hb (hsub hmem)) k
  -- The first turn looks at the pad.
  rw [freeWords, down_succ, List.foldl_cons, hwords l (List.subset_append_left ..),
    hpad.words b le_rfl, if_neg (not_not.mpr rfl)]
  refine foldl_frees hnodup fun l' k _ _ hsub => ?_
  rw [hwords l' fun c hc => hsub (List.mem_append_left _ hc)]
  unfold FileDev.pointer
  split
  · exact free_frees l' s _
  · rw [List.append_nil]

/-- An indirect block is freed behind the blocks that it names. -/
theorem freeIndirect_frees (hpad : s.PadZero) {i : ℕ} (hnodup : (l ++ s.indirectBlocks i b).Nodup)
    (hb : b ∉ l ++ s.indirectBlocks i b)
    (hok : ∀ c ∈ l ++ s.indirectBlocks i b, fp.badblock c = false) :
    fp.freeIndirect i b (fp.frees l s) = fp.frees (l ++ s.indirectBlocks i b) s := by
  by_cases h7 : i = 7
  · simp only [FileDev.indirectBlocks, if_pos h7] at hnodup hb hok ⊢
    have hwords : ∀ l', l' ⊆ l ++ (down 256).flatMap (fun k =>
        if s.words b k ≠ 0 then s.wordBlocks (s.words b k) ++ [s.words b k] else []) → ∀ k,
        (fp.frees l' s).words b k = s.words b k := fun l' hsub k =>
      words_frees (fun c hc => hok c (hsub hc)) (fun hmem => hb (hsub hmem)) k
    rw [freeIndirect, down_succ, List.foldl_cons, hwords l (List.subset_append_left ..),
      hpad.words b le_rfl, if_neg (not_not.mpr rfl)]
    refine foldl_frees hnodup fun l' k _ hnd hsub => ?_
    rw [hwords l' fun c hc => hsub (List.mem_append_left _ hc)]
    split at hnd
    · next hne =>
      simp only [if_pos hne, if_pos h7] at hsub ⊢
      -- The indirect block is freed behind its words.
      rw [← List.append_assoc] at hnd hsub ⊢
      have hinner : l' ++ s.wordBlocks (s.words b k) ⊆ l' ++ s.wordBlocks (s.words b k) ++
          [s.words b k] := List.subset_append_left ..
      have hlast : s.words b k ∉ l' ++ s.wordBlocks (s.words b k) := fun hmem =>
        List.disjoint_of_nodup_append hnd hmem (List.mem_singleton_self _)
      rw [freeWords_frees hpad (List.Nodup.of_append_left hnd) hlast
        fun c hc => hok c (hsub (hinner hc)), hwords _ fun c hc => hsub (hinner hc)]
      exact free_frees ..
    · next hzero =>
      simp only [if_neg hzero, List.append_nil]
  · simp only [FileDev.indirectBlocks, if_neg h7] at hnodup hb hok ⊢
    simp only [freeIndirect, if_neg h7]
    exact freeWords_frees hpad hnodup hb hok

/-- A place of the inode. Only this place is looked at. -/
theorem freeAddr_frees (hpad : s.PadZero) {i : ℕ} (hnodup : (l ++ s.addrBlocks i).Nodup)
    (hok : ∀ c ∈ l ++ s.addrBlocks i, fp.badblock c = false) :
    fp.freeAddr (fp.frees l s) i =
      fp.frees (l ++ s.addrBlocks i) { s with i_addr := update s.i_addr i 0 } := by
  have hl : ∀ c ∈ l, fp.badblock c = false := fun c hc => hok c (List.mem_append_left _ hc)
  obtain ⟨-, -, hilarg, haddr, -⟩ := frees_eq hl s
  unfold freeAddr
  rw [haddr, hilarg]
  unfold FileDev.addrBlocks at hnodup hok ⊢
  split
  · next hne =>
    simp only [if_pos hne, ← List.append_assoc] at hnodup hok ⊢
    -- the block of the pointers is freed after those it points to
    have hlast : s.i_addr i ∉ l ++ (if s.ilarg then s.indirectBlocks i (s.i_addr i) else []) :=
      fun hmem => List.disjoint_of_nodup_append hnodup hmem (List.mem_singleton_self _)
    have hunder : (if s.ilarg then fp.freeIndirect i (s.i_addr i) (fp.frees l s) else fp.frees l s) =
        fp.frees (l ++ (if s.ilarg then s.indirectBlocks i (s.i_addr i) else [])) s := by
      split
      · next hlarge =>
        simp only [if_pos hlarge] at hnodup hok hlast
        exact freeIndirect_frees hpad (List.Nodup.of_append_left hnodup) hlast
          fun c hc => hok c (List.mem_append_left _ hc)
      · rw [List.append_nil]
    obtain ⟨-, -, -, haddr₁, -⟩ := frees_eq (fun c hc => hok c (List.mem_append_left _ hc)) s
    obtain ⟨-, -, -, haddr₂, -⟩ := frees_eq hok s
    rw [hunder, haddr₁, free_frees, haddr₂]
    exact (frees_congr _ s _).symm
  · next hzero =>
    -- a place without a block stays as it is
    have hsame : update s.i_addr i 0 = s.i_addr := by
      rw [← not_not.mp hzero, update_eq_self]
    rw [hsame, List.append_nil]

/-- The places of the inode one after another. -/
theorem foldl_freeAddr {is : List ℕ} (hpad : s.PadZero) (his : is.Nodup)
    (hnodup : (l ++ is.flatMap s.addrBlocks).Nodup)
    (hok : ∀ c ∈ l ++ is.flatMap s.addrBlocks, fp.badblock c = false) :
    is.foldl fp.freeAddr (fp.frees l s) = fp.frees (l ++ is.flatMap s.addrBlocks)
      { s with i_addr := fun i => if i ∈ is then 0 else s.i_addr i } := by
  induction is generalizing l s with
  | nil => simp only [List.flatMap_nil, List.append_nil, List.foldl_nil, List.not_mem_nil, if_false]
  | cons i is ih =>
    obtain ⟨hi, his⟩ := List.nodup_cons.mp his
    rw [List.flatMap_cons, ← List.append_assoc] at hnodup hok ⊢
    rw [List.foldl_cons, freeAddr_frees hpad (List.Nodup.of_append_left hnodup)
      fun c hc => hok c (List.mem_append_left _ hc)]
    -- The other places are as before.
    have hrest : is.flatMap (FileDev.addrBlocks { s with i_addr := update s.i_addr i 0 }) =
        is.flatMap s.addrBlocks := by
      refine List.flatMap_congr fun j hj => ?_
      have hji : j ≠ i := fun hji => hi (hji ▸ hj)
      simp only [FileDev.addrBlocks, update_of_ne hji]
      rfl
    rw [← hrest] at hnodup hok ⊢
    have hih := ih (s := { s with i_addr := update s.i_addr i 0 }) (l := l ++ s.addrBlocks i) hpad his
      hnodup hok
    rw [hih]
    congr 2
    funext j
    rcases eq_or_ne j i with rfl | hji
    · simp
    · simp [hji]

/-- `itrunc` frees all blocks of the file, in this order, and clears its addresses. -/
theorem itrunc_eq (hpad : s.PadZero) (hnodup : s.allBlocks.Nodup)
    (hok : ∀ c ∈ s.allBlocks, fp.badblock c = false) :
    fp.itrunc s = { fp.frees s.allBlocks s with
      ilarg := false
      i_addr := fun i => if i < 8 then 0 else s.i_addr i
      i_size := 0 } := by
  have hdown : (down 8).Nodup := List.nodup_reverse.mpr List.nodup_range
  have hmem : ∀ i, i ∈ down 8 ↔ i < 8 := by simp [down]
  have hall : [] ++ (down 8).flatMap s.addrBlocks = s.allBlocks := by
    rw [List.nil_append, FileDev.allBlocks]
  rw [← hall] at hnodup hok
  have hloop := foldl_freeAddr hpad hdown hnodup hok
  rw [hall, frees_nil, frees_congr] at hloop
  rw [itrunc, hloop]
  simp only [hmem]

end Super

/-! ## The blocks of the tree -/

/-- The nodes under an indirect block of data, from the last on. -/
def Node.leaves (i : ℕ) : List Node := (Super.down 256).map fun k => .data (256 * i + k)

/-- The nodes under a place of the inode. -/
def Node.column (ilarg : Bool) (i : ℕ) : List Node :=
  if ilarg then
    (if i = 7 then (Super.down 256).flatMap fun j => leaves (j + 7) ++ [.ind2 j] else leaves i) ++
      [.ind i]
  else [.data i]

/-- The nodes in the order in which they are freed. -/
def Node.order (ilarg : Bool) : List Node := (Super.down 8).flatMap (column ilarg)

/-- Lists for different keys have nothing in common. -/
theorem nodup_flatMap_of_key {α : Type*} {ks : List ℕ} (hks : ks.Nodup) {f : ℕ → List α}
    (key : α → ℕ) (hkey : ∀ k ∈ ks, ∀ x ∈ f k, key x = k) (hf : ∀ k ∈ ks, (f k).Nodup) :
    (ks.flatMap f).Nodup := by
  refine List.nodup_flatMap.mpr ⟨hf, hks.imp_of_mem fun {k k'} hk hk' hne x hx hx' => ?_⟩
  exact hne ((hkey k hk x hx).symm.trans (hkey k' hk' x hx'))

namespace Node

theorem nodup_down (n : ℕ) : (Super.down n).Nodup := List.nodup_reverse.mpr List.nodup_range

theorem mem_down {n k : ℕ} : k ∈ Super.down n ↔ k < n := by simp [Super.down]

/-- The leaves below an indirect block are its 256 data blocks. -/
theorem mem_leaves {i : ℕ} {r : Node} : r ∈ leaves i ↔ ∃ k < 256, r = .data (256 * i + k) := by
  simp [leaves, mem_down, eq_comm]

theorem nodup_leaves (i : ℕ) : (leaves i).Nodup := by
  refine (nodup_down 256).map fun k k' heq => ?_
  simpa using heq

/-- The place of the inode over a node. -/
def root (ilarg : Bool) : Node → ℕ
  | .ind i => i
  | .ind2 _ => 7
  | .data bn => if ilarg then min (bn / 256) 7 else bn

/-- What lies below an address of a large file. -/
theorem mem_column {i : ℕ} {r : Node} : r ∈ column true i ↔ r = .ind i ∨
    (i ≠ 7 ∧ ∃ k < 256, r = .data (256 * i + k)) ∨
    i = 7 ∧ ∃ j < 256, r = .ind2 j ∨ ∃ k < 256, r = .data (256 * (j + 7) + k) := by
  unfold column
  rw [if_pos rfl, List.mem_append, List.mem_singleton, or_comm]
  refine or_congr_right ?_
  by_cases h7 : i = 7
  · simp [h7, mem_down, mem_leaves, or_comm]
  · simp [h7, mem_leaves]

theorem nodup_column (ilarg : Bool) (i : ℕ) : (column ilarg i).Nodup := by
  unfold column
  split
  · refine List.nodup_append.mpr ⟨?_, List.nodup_singleton _, ?_⟩
    · split
      · -- The blocks of a double indirect block are told apart by the block number.
        refine nodup_flatMap_of_key (nodup_down 256)
          (fun | .ind2 j => j | .data bn => bn / 256 - 7 | .ind _ => 0) (fun j _ r hr => ?_)
          fun j _ => ?_
        · rcases List.mem_append.mp hr with hr | hr
          · obtain ⟨k, hk, rfl⟩ := mem_leaves.mp hr
            simp only
            omega
          · rw [List.mem_singleton.mp hr]
        · refine List.nodup_append.mpr ⟨nodup_leaves _, List.nodup_singleton _, ?_⟩
          rintro r hr r' hr' rfl
          obtain ⟨k, -, rfl⟩ := mem_leaves.mp hr
          simp at hr'
      · exact nodup_leaves i
    · rintro r hr r' hr' rfl
      obtain rfl := List.mem_singleton.mp hr'
      split at hr
      · simp [mem_leaves] at hr
      · simp [mem_leaves] at hr
  · exact List.nodup_singleton _

theorem nodup_order (ilarg : Bool) : (order ilarg).Nodup := by
  refine nodup_flatMap_of_key (nodup_down 8) (root ilarg) (fun i hi r hr => ?_)
    fun i _ => nodup_column ilarg i
  have hi := mem_down.mp hi
  cases ilarg with
  | false =>
    obtain rfl : r = .data i := by simpa [column] using hr
    rfl
  | true =>
    rcases mem_column.mp hr with rfl | ⟨h7, k, hk, rfl⟩ | ⟨rfl, j, hj, rfl | ⟨k, hk, rfl⟩⟩
    · rfl
    · simp only [root, if_true]
      omega
    · rfl
    · simp only [root, if_true]
      omega

end Node

namespace FileDev

variable {s : FileDev}

/-- The blocks in places of the tree. -/
theorem node_eq {r q : Node} {k : ℕ} (hr : r.parent s.ilarg = some (q, k)) :
    s.node r = if s.node q = 0 then 0 else s.words (s.node q) k := by
  rw [s.isTree r, TreeShape.follow]
  simp only [Node.shape, hr]

/-- The words of an indirect block lead to its leaves. -/
theorem wordBlocks_eq {q : Node} {i : ℕ}
    (hq : ∀ k < 256, (Node.data (256 * i + k)).parent s.ilarg = some (q, k)) :
    (Node.leaves i).flatMap (fun r => pointer (s.node r)) =
      if s.node q = 0 then [] else s.wordBlocks (s.node q) := by
  rw [Node.leaves, List.flatMap_map]
  split
  · next h0 =>
    refine List.flatMap_eq_nil_iff.mpr fun k hk => ?_
    rw [node_eq (hq k (Node.mem_down.mp hk)), if_pos h0]
    rfl
  · next h0 =>
    refine List.flatMap_congr fun k hk => ?_
    rw [node_eq (hq k (Node.mem_down.mp hk)), if_neg h0]

/-- The double indirect block, under which the indirect blocks come with their leaves. -/
theorem indirectBlocks_eq (hl : s.ilarg = true) :
    ((Super.down 256).flatMap fun j => Node.leaves (j + 7) ++ [.ind2 j]).flatMap
      (fun r => pointer (s.node r)) = if s.i_addr 7 = 0 then [] else s.indirectBlocks 7 (s.i_addr 7) := by
  have htop : s.node (.ind 7) = s.i_addr 7 := by simp [node, hl]
  have hmid : ∀ j, s.node (.ind2 j) = if s.i_addr 7 = 0 then 0 else s.words (s.i_addr 7) j := by
    intro j
    rw [node_eq (q := .ind 7) (k := j) (by simp [Node.parent, hl]), htop]
  have hleaves : ∀ j, (Node.leaves (j + 7)).flatMap (fun r => pointer (s.node r)) =
      if s.node (.ind2 j) = 0 then [] else s.wordBlocks (s.node (.ind2 j)) := by
    refine fun j => wordBlocks_eq fun k hk => ?_
    have hdiv : (256 * (j + 7) + k) / 256 = j + 7 := by omega
    have hmod : (256 * (j + 7) + k) % 256 = k := by omega
    simp [Node.parent, hl, hdiv, hmod]
  rw [List.flatMap_assoc]
  simp only [List.flatMap_append, List.flatMap_singleton, hleaves, hmid]
  split
  · simp [pointer]
  · rw [indirectBlocks, if_pos rfl]
    refine List.flatMap_congr fun j _ => ?_
    unfold pointer
    split
    · next h0 => simp [h0]
    · simp

/-- The walk meets the nodes. -/
theorem addrBlocks_eq {i : ℕ} (hi : i < 8) :
    (Node.column s.ilarg i).flatMap (fun r => pointer (s.node r)) = s.addrBlocks i := by
  cases hl : s.ilarg with
  | false =>
    have hnode : s.node (.data i) = s.i_addr i := by simp [node, hl, hi]
    simp [Node.column, addrBlocks, hl, hnode, pointer]
  | true =>
    have hnode : s.node (.ind i) = s.i_addr i := by simp [node, hl, hi]
    -- what is below the indirect block; block 7 is doubly indirect
    have hunder : (if i = 7 then (Super.down 256).flatMap fun j => Node.leaves (j + 7) ++ [.ind2 j]
        else Node.leaves i).flatMap (fun r => pointer (s.node r)) =
          if s.i_addr i = 0 then [] else s.indirectBlocks i (s.i_addr i) := by
      split
      · next h7 =>
        subst h7
        exact indirectBlocks_eq hl
      · next h7 =>
        rw [wordBlocks_eq (q := .ind i), hnode, indirectBlocks, if_neg h7]
        intro k hk
        have hdiv : (256 * i + k) / 256 = i := by omega
        have hmod : (256 * i + k) % 256 = k := by omega
        have hlt : i < 7 := by omega
        simp [Node.parent, hl, hdiv, hmod, hlt]
    rw [Node.column, if_pos rfl, List.flatMap_append, hunder, List.flatMap_singleton, hnode,
      addrBlocks, if_pos hl, pointer]
    split
    · next h0 => rw [if_neg (not_not.mpr h0), if_neg (not_not.mpr h0), List.append_nil]
    · rfl

/-- The blocks of a file are those of its nodes, in the order of `itrunc`. -/
theorem allBlocks_eq (s : FileDev) :
    s.allBlocks = (Node.order s.ilarg).flatMap fun r => pointer (s.node r) := by
  rw [Node.order, List.flatMap_assoc, allBlocks]
  exact List.flatMap_congr fun i hi => (addrBlocks_eq (Node.mem_down.mp hi)).symm

/-- There are no blocks behind the pads. -/
theorem mem_order (hpad : s.PadZero) {r : Node} (h0 : s.node r ≠ 0) : r ∈ Node.order s.ilarg := by
  -- a node that is there is one of the 256 words of a block that is there
  have hword : ∀ {r q k}, s.node r ≠ 0 → r.parent s.ilarg = some (q, k) →
      s.node q ≠ 0 ∧ k < 256 := by
    intro r q k hne hr
    rw [node_eq hr] at hne
    split at hne
    · exact absurd rfl hne
    · next hq => exact ⟨hq, not_le.mp fun hk => hne (hpad.words _ hk)⟩
  have hcolumn : ∀ i < 8, r ∈ Node.column s.ilarg i → r ∈ Node.order s.ilarg := fun i hi hmem =>
    List.mem_flatMap.mpr ⟨i, Node.mem_down.mpr hi, hmem⟩
  cases hl : s.ilarg with
  | false =>
    rw [hl] at hcolumn
    cases r with
    | ind i => simp [node, hl] at h0
    | ind2 j => simp [node, hl] at h0
    | data bn =>
      -- a small file has data at its eight places only
      have hbn : bn < 8 := by
        by_contra hge
        simp [node, hl, hge] at h0
      exact hcolumn bn hbn (by simp [Node.column])
  | true =>
    rw [hl] at hcolumn hword
    cases r with
    | ind i =>
      have hi : i < 8 := by
        by_contra hge
        simp [node, hge] at h0
      exact hcolumn i hi (Node.mem_column.mpr (.inl rfl))
    | ind2 j =>
      obtain ⟨-, hj⟩ := hword (k := j) h0 (by simp [Node.parent]; rfl)
      exact hcolumn 7 (by omega) (Node.mem_column.mpr (.inr (.inr ⟨rfl, j, hj, .inl rfl⟩)))
    | data bn =>
      -- the block of `bn` is below one of the seven blocks, or below the doubly indirect one
      have hmod : bn % 256 < 256 := Nat.mod_lt _ (by omega)
      by_cases h7 : bn / 256 < 7
      · refine hcolumn (bn / 256) (by omega)
          (Node.mem_column.mpr (.inr (.inl ⟨by omega, bn % 256, hmod, ?_⟩)))
        rw [Nat.div_add_mod]
      · obtain ⟨hq, -⟩ := hword (q := .ind2 (bn / 256 - 7)) (k := bn % 256) h0
          (by simp [Node.parent, h7])
        obtain ⟨-, hj⟩ := hword (q := .ind 7) (k := bn / 256 - 7) hq (by simp [Node.parent])
        refine hcolumn 7 (by omega) (Node.mem_column.mpr (.inr (.inr
          ⟨rfl, bn / 256 - 7, hj, .inr ⟨bn % 256, hmod, ?_⟩⟩)))
        rw [Nat.sub_add_cancel (by omega), Nat.div_add_mod]

/-- The blocks of a file are those that a node of it has. -/
theorem mem_allBlocks (hpad : s.PadZero) {c : BitVec 16} :
    c ∈ s.allBlocks ↔ c ≠ 0 ∧ ∃ r, s.node r = c := by
  rw [allBlocks_eq, List.mem_flatMap]
  constructor
  · rintro ⟨r, -, hr⟩
    obtain ⟨hc, hr⟩ := mem_pointer.mp hr
    exact ⟨hc, r, hr⟩
  · rintro ⟨hc, r, rfl⟩
    exact ⟨r, mem_order hpad hc, mem_pointer.mpr ⟨hc, rfl⟩⟩

theorem nodup_allBlocks (h : NodesDistinct s.node) : s.allBlocks.Nodup := by
  rw [allBlocks_eq]
  refine List.nodup_flatMap.mpr ⟨fun r _ => ?_, (Node.nodup_order s.ilarg).imp ?_⟩
  · unfold pointer
    split
    · exact List.nodup_singleton _
    · exact List.nodup_nil
  · intro r r' hne c hr hr'
    obtain ⟨hc, hr⟩ := mem_pointer.mp hr
    obtain ⟨-, hr'⟩ := mem_pointer.mp hr'
    exact hne (h r r' (hr ▸ hc) (hr.trans hr'.symm))

/-! ## The pads -/

/-- A word of a block does not reach behind it. -/
theorem setWord_pad {b : Block} {k m : ℕ} (w : BitVec 16) (hk : k < 256) (hm : 512 ≤ m) :
    b.setWord k w m = b m := by
  rw [Block.setWord, update_of_ne (by omega), update_of_ne (by omega)]

/-- Words of a block do not reach behind it. -/
theorem foldl_setWord_pad {b : Block} {ks : List ℕ} {m : ℕ} (p : ℕ → ℕ) (w : ℕ → BitVec 16)
    (hks : ∀ k ∈ ks, p k < 256) (hm : 512 ≤ m) :
    ks.foldl (fun b k => b.setWord (p k) (w k)) b m = b m := by
  induction ks generalizing b with
  | nil => rfl
  | cons k ks ih =>
    obtain ⟨hk, hks⟩ := List.forall_mem_cons.mp hks
    rw [List.foldl_cons, ih hks, setWord_pad _ hk hm]

/-- A block is written that has zeros behind it. -/
theorem PadZero.of_update {disk : BitVec 16 → Block} (h : ∀ b k, 512 ≤ k → disk b k = 0)
    {bno : BitVec 16} {x : Block} (hx : ∀ k, 512 ≤ k → x k = 0) (b : BitVec 16) (k : ℕ)
    (hk : 512 ≤ k) : update disk bno x b k = 0 := by
  rcases eq_or_ne b bno with rfl | hb
  · rw [update_self, hx k hk]
  · rw [update_of_ne hb, h b k hk]

theorem PadZero.alloc (h : s.PadZero) : s.alloc.2.PadZero := by
  unfold FileDev.alloc
  split
  · exact h
  · exact PadZero.of_update h fun _ _ => rfl

theorem PadZero.fetchAddr (h : s.PadZero) (i : ℕ) : (s.fetchAddr i).2.PadZero := by
  unfold FileDev.fetchAddr
  split
  · exact h
  · dsimp only
    split
    · exact h.alloc
    · exact h.alloc

/-- Fetching a word writes nothing behind a block. -/
theorem PadZero.fetchWord (h : s.PadZero) (bp : BitVec 16) {k : ℕ} (hk : k < 256) :
    (s.fetchWord bp k).2.PadZero := by
  unfold FileDev.fetchWord
  split
  · exact h
  · dsimp only
    split
    · exact h.alloc
    · refine PadZero.of_update h.alloc fun m hm => ?_
      rw [setWord_pad _ hk hm, h.alloc _ m hm]

theorem PadZero.toLarge (h : s.PadZero) : s.toLarge.2.PadZero := by
  unfold FileDev.toLarge
  dsimp only
  split
  · exact h.alloc
  · refine PadZero.of_update h.alloc fun m hm => ?_
    rw [Block.ofAddr, foldl_setWord_pad _ _ (fun k hk => ?_) hm]
    · rfl
    · have := List.mem_range.mp hk
      omega

theorem PadZero.large (h : s.PadZero) (bn : ℕ) : (s.large bn).2.PadZero := by
  have hmod : bn % 256 < 256 := Nat.mod_lt _ (by omega)
  have hroot := fun i => h.fetchAddr i
  unfold FileDev.large
  dsimp only
  generalize (if bn / 2048 ≠ 0 then 7 else bn / 256) = i
  split
  · exact hroot _
  · split
    · split
      · exact (hroot _).fetchWord _ (by omega)
      · exact ((hroot _).fetchWord _ (by omega)).fetchWord _ hmod
    · exact (hroot _).fetchWord _ hmod

theorem PadZero.bmap (h : s.PadZero) (bn : ℕ) : (s.bmap bn).2.PadZero := by
  unfold FileDev.bmap
  split
  · exact h.large bn
  · split
    · dsimp only
      split
      · exact h.toLarge.large bn
      · exact h.toLarge
    · exact h.fetchAddr bn

end FileDev

/-- A block of the free chain has zeros behind its words. -/
theorem Super.chain_pad (fp : Super) (bno : BitVec 16) (free : List (BitVec 16)) {m : ℕ}
    (hm : 512 ≤ m) : fp.chain bno free m = 0 := by
  rw [chain, FileDev.foldl_setWord_pad _ _ (fun k hk => ?_) hm,
    FileDev.setWord_pad _ (by omega) hm, fp.junk_pad _ m hm]
  have := List.mem_range.mp hk
  omega

/-- Freeing blocks writes nothing behind a block. -/
theorem FileDev.PadZero.frees {fp : Super} {s : FileDev} (h : s.PadZero) (l : List (BitVec 16)) :
    (fp.frees l s).PadZero := by
  induction l generalizing s with
  | nil => exact h
  | cons b l ih =>
    refine ih (s := fp.free s b) ?_
    unfold Super.free
    split
    · exact h
    · intro c k hk
      dsimp only
      split
      · exact FileDev.PadZero.of_update h (fun m hm => fp.chain_pad _ _ hm) c k hk
      · exact h c k hk

/-! ## Truncation -/

namespace FileDev

variable {fp : Super} {s s' : FileDev}

/-- All blocks of the file are on the free list, each of them once, and no others have come there. -/
structure Truncated (s s' : FileDev) : Prop where
  free : ∃ l, s'.free = l ++ s.free ∧ l.Nodup ∧ ∀ c, c ∈ l ↔ c ≠ 0 ∧ ∃ r, s.node r = c
  i_addr : ∀ i < 8, s'.i_addr i = 0
  ilarg : s'.ilarg = false
  i_size : s'.i_size = 0

/-- `itrunc` leaves an empty file, and all its blocks are free. -/
theorem Inv.itrunc (h : s.Inv) (hpad : s.PadZero)
    (hok : ∀ r, s.node r ≠ 0 → fp.badblock (s.node r) = false) :
    Truncated s (fp.itrunc s) ∧ (fp.itrunc s).Inv ∧ Grows s (fp.itrunc s) ∧
      (fp.itrunc s).PadZero := by
  have hnodup := nodup_allBlocks h.distinct
  -- the blocks that the walk frees are those that some node has
  have hmem : ∀ c, c ∈ s.allBlocks ↔ c ≠ 0 ∧ ∃ r, s.node r = c := fun c => mem_allBlocks hpad
  have hbad : ∀ c ∈ s.allBlocks, fp.badblock c = false := by
    intro c hc
    obtain ⟨h0, r, rfl⟩ := (hmem c).mp hc
    exact hok r h0
  -- the walk is one `free` for each of them, then the inode is cleared
  obtain ⟨hfree, hdisk, -⟩ := Super.frees_eq hbad s
  have heq := Super.itrunc_eq hpad hnodup hbad
  generalize fp.itrunc s = s' at heq ⊢
  have hfree' : s'.free = s.allBlocks.reverse ++ s.free := by rw [heq]; exact hfree
  have hilarg : s'.ilarg = false := by rw [heq]
  have haddr : s'.i_addr = fun i => if i < 8 then 0 else s.i_addr i := by rw [heq]
  have hdisk' : s'.disk = (fp.frees s.allBlocks s).disk := by rw [heq]
  -- no node has a block any more
  have hnode : ∀ r, s'.node r = 0 := by
    intro r
    cases r with
    | ind i => simp [node, hilarg]
    | ind2 j => simp [node, hilarg]
    | data bn =>
      by_cases hbn : bn < 8
      · simp [node, hilarg, haddr, hbn]
      · simp [node, hilarg, hbn]
  -- block zero is not on the list
  have hzero : 0 ∉ s'.free := by
    rw [hfree', List.mem_append, List.mem_reverse, hmem]
    rintro (⟨h0, -⟩ | h0)
    · exact h0 rfl
    · exact h.zero h0
  -- the fields of `Truncated` and `Inv`, what grows, and the padding
  refine ⟨⟨⟨_, hfree', List.nodup_reverse.mpr hnodup, fun c => ?_⟩, fun i hi => ?_, hilarg,
    by rw [heq]⟩, ⟨fun r r' hr => absurd (hnode r) hr, ?_, hzero, fun r => hnode r ▸ hzero⟩,
    ⟨fun c h0 hc hr => ?_, fun c h0 => ?_⟩, fun b k hk => ?_⟩
  · rw [List.mem_reverse, hmem]
  · rw [haddr]
    exact if_pos hi
  · rw [hfree']
    refine List.nodup_append.mpr ⟨List.nodup_reverse.mpr hnodup, h.nodup, ?_⟩
    -- a block of the file was not free before
    rintro c hc c' hc' rfl
    obtain ⟨-, r, rfl⟩ := (hmem c).mp (List.mem_reverse.mp hc)
    exact h.fresh r hc'
  · rw [hdisk']
    refine hdisk c fun hmem' => ?_
    obtain ⟨-, r, hr'⟩ := (hmem c).mp hmem'
    exact hr r hr'
  · rw [hfree', List.mem_append, List.mem_reverse, hmem]
    -- what is free or the file's: the same blocks before and after
    constructor
    · rintro ((⟨-, hr⟩ | hc) | ⟨r, hr⟩)
      · exact .inr hr
      · exact .inl hc
      · exact absurd ((hnode r).symm.trans hr).symm h0
    · rintro (hc | hr)
      · exact .inl (.inr hc)
      · exact .inl (.inl ⟨h0, hr⟩)
  · rw [hdisk']
    exact hpad.frees _ b k hk

end FileDev

end UnixV6
