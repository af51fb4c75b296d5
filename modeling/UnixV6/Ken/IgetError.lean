import UnixV6.Ken.Iget
import UnixV6.Ken.Itrunc

/-!
# A disk error in `iget` (`ken/iget.c`, with `ifree` of `ken/alloc.c`)

One call of `iget`, run to its end, for an inode that is not in core. The slot it takes has the
fields of its last occupant until the inode has been read, and these are what `iput` finds when the
read fails. Of the device there are its blocks and the two free lists; inode numbers are those of an
I list.
-/

open Function

namespace UnixV6

def EIO : ℕ := 5
def ENFILE : ℕ := 23

/-- The words of an inode on the disk, without its times. -/
def Dinode.word (d : Dinode) : ℕ → BitVec 16
  | 0 => d.i_mode
  | 1 => d.i_uid ++ d.i_nlink
  | 2 => d.i_size0 ++ d.i_gid
  | 3 => d.i_size1
  | k + 4 => if h : k < 8 then d.i_addr ⟨k, h⟩ else 0

/-- The inode that the words are of. -/
def Dinode.ofWords (w : ℕ → BitVec 16) : Dinode where
  i_mode := w 0
  i_nlink := (w 1).setWidth 8
  i_uid := (w 1 >>> 8).setWidth 8
  i_gid := (w 2).setWidth 8
  i_size0 := (w 2 >>> 8).setWidth 8
  i_size1 := w 3
  i_addr k := w (4 + k)

/-- The block of an inode, and its first word there. -/
def inodeBlock (ino : ℤ) : BitVec 16 := BitVec.ofInt 16 ((ino + 31).tdiv 16)
@[inherit_doc inodeBlock] def inodeWord (ino : ℤ) : ℕ := 16 * ((ino + 31).tmod 16).toNat

/-- Words are copied into a block. -/
def Block.putWords (b : Block) (base n : ℕ) (w : ℕ → BitVec 16) : Block :=
  (List.range n).foldl (fun b k => b.setWord (base + k) (w k)) b

/-- The inode table, and a device. -/
structure IgetSys where
  inode : InodePtr → Inode
  disk : BitVec 16 → Block
  /-- The free list of blocks. -/
  free : List (BitVec 16)
  fp : Super
  /-- The free inodes in the super block, the last one first. -/
  s_inode : {l : List ℤ // l.length ≤ 100}
  s_ilock : Bool
  s_ronly : Bool
  time : ℕ → BitVec 16
  u_error : ℕ

/-- The errors of the transfers of the block with the inode: the `b_error` of each that fails. -/
structure DiskErrors where
  /-- The `bread` of `iget`. -/
  iget : Option ℕ
  /-- The `bread` of `iupdat`, with what is in the buffer then. -/
  iupdat : Option (ℕ × Block)
  bwrite : Option ℕ

namespace IgetSys

/-- Pick up an I/O error. -/
def geterror (s : IgetSys) : Option ℕ → IgetSys
  | none => s
  | some b_error => { s with u_error := if b_error = 0 then EIO else b_error }

def setInode (s : IgetSys) (p : InodePtr) (i : Inode) : IgetSys :=
  { s with inode := update s.inode p i }

/-! ## `iput` -/

/-- The blocks and the free list, with the file that a slot has the fields of. -/
def file (s : IgetSys) (i : Inode) : FileDev where
  ilarg := i.i_mode &&& ILARG ≠ 0
  i_addr k := if h : k < 8 then i.i_addr ⟨k, h⟩ else 0
  i_size := i.i_size0 ++ i.i_size1
  disk := s.disk
  free := s.free

/-- `itrunc`. -/
def itrunc (s : IgetSys) (p : InodePtr) : IgetSys :=
  let i := s.inode p
  -- `i_mode & (IFCHR & IFBLK)`
  if i.i_mode &&& IFCHR ≠ 0 then s
  else
    let f := s.fp.itrunc (s.file i)
    { s with disk := f.disk, free := f.free }.setInode p { i with
      i_mode := i.i_mode &&& ~~~ILARG
      i_size0 := 0
      i_size1 := 0
      i_addr := fun k => f.i_addr k
      iupd := true }

/-- Free the specified I node: up to a hundred are stored in the super block. -/
def ifree (s : IgetSys) (ino : ℤ) : IgetSys :=
  if h : s.s_ilock = false ∧ s.s_inode.1.length < 100 then
    { s with s_inode := ⟨ino :: s.s_inode.1, h.2⟩ }
  else s

/-- What `iupdat` makes of the block. -/
def updated (s : IgetSys) (i : Inode) (b : Block) : Block :=
  let base := inodeWord i.i_number
  let b := b.putWords base 12 i.word
  let b := if i.iacc then b.putWords (base + 12) 2 s.time else b
  if i.iupd then b.putWords (base + 14) 2 s.time else b

/-- `iupdat`; it does not look at the error of its `bread`. -/
def iupdat (E : DiskErrors) (s : IgetSys) (p : InodePtr) : IgetSys :=
  let i := s.inode p
  if (i.iupd || i.iacc) && !s.s_ronly then
    let bn := inodeBlock i.i_number
    let b := (E.iupdat.map Prod.snd).getD (s.disk bn)
    let s := s.geterror (E.iupdat.map Prod.fst)
    let s := if E.bwrite.isNone then { s with disk := update s.disk bn (s.updated i b) } else s
    s.geterror E.bwrite
  else s

/-- The end of a file without links. -/
def release (s : IgetSys) (p : InodePtr) : IgetSys :=
  if (s.inode p).i_nlink.toInt ≤ 0 then
    let s := s.itrunc p
    let s := s.setInode p { s.inode p with i_mode := 0 }
    s.ifree (s.inode p).i_number
  else s

/-- `iput`. -/
def iput (E : DiskErrors) (s : IgetSys) (p : InodePtr) : IgetSys :=
  let s :=
    if (s.inode p).i_count = 1 then
      let s := (s.setInode p { s.inode p with ilock := true }).release p
      let s := s.iupdat E p
      s.setInode p { s.inode p with
        ilock := false, iupd := false, iacc := false, imount := false, iwant := false
        i_number := 0 }
    else s
  s.setInode p { s.inode p with
    i_count := (s.inode p).i_count + -1#8, ilock := false, iwant := false }

/-! ## `iget` -/

/-- The slot of an inode that is in core. -/
def findInode (s : IgetSys) (dev ino : ℤ) : Option InodePtr :=
  (List.finRange NINODE).find? fun p => (s.inode p).i_dev == dev && (s.inode p).i_number == ino

/-- The first free slot. -/
def findFree (s : IgetSys) : Option InodePtr :=
  (List.finRange NINODE).find? fun p => (s.inode p).i_count == 0

/-- A slot that is taken; the fields that are read from the disk are what they were. -/
def claimed (s : IgetSys) (p : InodePtr) (dev ino : ℤ) : Inode :=
  { s.inode p with
    i_dev := dev, i_number := ino, i_count := (s.inode p).i_count + 1
    ilock := true, iupd := false, iacc := false, imount := false, iwant := false }

/-- `iget` of an inode that is not in core, with the pointer it returns; `none` if the inode is in
core. -/
def iget (E : DiskErrors) (s : IgetSys) (dev ino : ℤ) : Option (Option InodePtr × IgetSys) :=
  match s.findInode dev ino with
  | some _ => none
  | none =>
    match s.findFree with
    -- "Inode table overflow"
    | none => some (none, { s with u_error := ENFILE })
    | some p =>
      let s := (s.setInode p (s.claimed p dev ino)).geterror E.iget
      if E.iget.isSome then some (none, s.iput E p)
      else
        let d := Dinode.ofWords fun k => (s.disk (inodeBlock ino)).word (inodeWord ino + k)
        some (some p, s.setInode p { s.inode p with toDinode := d })

end IgetSys

/-! ## Inodes on the disk -/

/-- An inode on the disk has twelve words. -/
theorem Dinode.ofWords_congr {w w' : ℕ → BitVec 16} (h : ∀ k < 12, w k = w' k) :
    Dinode.ofWords w = Dinode.ofWords w' := by
  unfold ofWords
  rw [h 0 (by decide), h 1 (by decide), h 2 (by decide), h 3 (by decide)]
  have haddr : (fun k : Fin 8 => w (4 + k)) = fun k : Fin 8 => w' (4 + k) :=
    funext fun k => h _ (by omega)
  rw [haddr]

/-- The words of an inode are read back. -/
theorem Dinode.ofWords_word (d : Dinode) : Dinode.ofWords d.word = d := by
  obtain ⟨i_mode, i_nlink, i_uid, i_gid, i_size0, i_size1, i_addr⟩ := d
  have hhigh : ∀ a b : BitVec 8, ((a ++ b : BitVec 16) >>> 8).setWidth 8 = a := by
    intro a b
    rw [BitVec.setWidth_ushiftRight_eq_extractLsb]
    exact BitVec.extractLsb'_append_eq_left
  simp only [ofWords, word, BitVec.setWidth_append_eq_right, hhigh, Dinode.mk.injEq, true_and]
  funext k
  rw [Nat.add_comm]
  exact dif_pos k.isLt

/-- The place of an inode in the inode area. -/
theorem inode_place {n : ℕ} (hn : n ≤ 32736) :
    (inodeBlock n).toNat = (n + 31) / 16 ∧ inodeWord n = 16 * ((n + 31) % 16) := by
  have hsum : (n : ℤ) + 31 = ((n + 31 : ℕ) : ℤ) := rfl
  unfold inodeBlock inodeWord
  rw [hsum, Int.tdiv_eq_ediv_of_nonneg (by omega), Int.tmod_eq_emod_of_nonneg (by omega)]
  constructor
  · rw [BitVec.toNat_ofInt]
    omega
  · omega

/-! ## What `itrunc` frees -/

/-- A part of `itrunc` leaves the file as `t` if `Q` holds, and else the free list gets longer. -/
structure Walk (Q : Prop) (s t s' : FileDev) : Prop where
  quiet : Q → s' = t
  grows : ¬ Q → s.free.length < s'.free.length

/-- A walk frees blocks only. -/
theorem Walk.le {Q : Prop} {s t s' : FileDev} (h : Walk Q s t s') (ht : t.free = s.free) :
    s.free.length ≤ s'.free.length := by
  by_cases hq : Q
  · rw [h.quiet hq, ht]
  · exact (h.grows hq).le

namespace Super

variable {fp : Super} {s : FileDev} {b : BitVec 16}

/-- One block is freed. -/
theorem walk_free (fp : Super) (s : FileDev) (b : BitVec 16) :
    Walk (fp.badblock b = true) s s (fp.free s b) := by
  refine ⟨fun hbad => if_pos hbad, fun hgood => ?_⟩
  rw [free, if_neg hgood]
  exact Nat.lt_succ_self _

/-- A loop frees nothing if no turn of it does. -/
theorem walk_foldl {κ : Type*} {f : FileDev → κ → FileDev} {Q : FileDev → κ → Prop}
    (h : ∀ s k, Walk (Q s k) s s (f s k)) (ks : List κ) (s : FileDev) :
    Walk (∀ k ∈ ks, Q s k) s s (ks.foldl f s) := by
  induction ks generalizing s with
  | nil => exact ⟨fun _ => rfl, fun hq => absurd (fun k hk => by cases hk) hq⟩
  | cons k ks ih =>
    rw [List.foldl_cons, List.forall_mem_cons]
    by_cases hk : Q s k
    · rw [(h s k).quiet hk]
      exact ⟨fun hq => (ih s).quiet hq.2, fun hq => (ih s).grows fun hrest => hq ⟨hk, hrest⟩⟩
    · refine ⟨fun hq => absurd hq.1 hk, fun _ => ?_⟩
      exact ((h s k).grows hk).trans_le ((ih (f s k)).le rfl)

/-- No word of a block is the number of a block of the device; the pad counts. -/
def WordsOutside (fp : Super) (s : FileDev) (b : BitVec 16) : Prop :=
  ∀ k ∈ down 257, s.words b k ≠ 0 → fp.badblock (s.words b k) = true

/-- The same for an indirect block in a place of the inode. -/
def IndirectOutside (fp : Super) (s : FileDev) (i : ℕ) (b : BitVec 16) : Prop :=
  ∀ k ∈ down 257, s.words b k ≠ 0 →
    fp.badblock (s.words b k) = true ∧ (i = 7 → fp.WordsOutside s (s.words b k))

/-- The same for a place of the inode. -/
def AddrOutside (fp : Super) (s : FileDev) (i : ℕ) : Prop :=
  s.i_addr i ≠ 0 →
    fp.badblock (s.i_addr i) = true ∧ (s.ilarg = true → fp.IndirectOutside s i (s.i_addr i))

/-- The blocks that an indirect block names are freed. -/
theorem walk_freeWords (fp : Super) (b : BitVec 16) (s : FileDev) :
    Walk (fp.WordsOutside s b) s s (fp.freeWords b s) := by
  have hturn : ∀ (s : FileDev) (k : ℕ),
      Walk (s.words b k ≠ 0 → fp.badblock (s.words b k) = true) s s
        (if s.words b k ≠ 0 then fp.free s (s.words b k) else s) := by
    intro s k
    split
    · next hne =>
      have hfree := walk_free fp s (s.words b k)
      exact ⟨fun hq => hfree.quiet (hq hne), fun hq => hfree.grows fun hbad => hq fun _ => hbad⟩
    · next hzero => exact ⟨fun _ => rfl, fun hq => absurd (fun hne => absurd hne hzero) hq⟩
  exact walk_foldl hturn (down 257) s

/-- An indirect block is freed with all below it. -/
theorem walk_freeIndirect (fp : Super) (i : ℕ) (b : BitVec 16) (s : FileDev) :
    Walk (fp.IndirectOutside s i b) s s (fp.freeIndirect i b s) := by
  have hturn : ∀ (s : FileDev) (k : ℕ), Walk (s.words b k ≠ 0 →
        fp.badblock (s.words b k) = true ∧ (i = 7 → fp.WordsOutside s (s.words b k))) s s
      (if s.words b k ≠ 0 then
        let s := if i = 7 then fp.freeWords (s.words b k) s else s
        fp.free s (s.words b k)
      else s) := by
    intro s k
    split
    · next hne =>
      by_cases hout : i = 7 → fp.WordsOutside s (s.words b k)
      · have hsame : (if i = 7 then fp.freeWords (s.words b k) s else s) = s := by
          split
          · next h7 => exact (walk_freeWords fp (s.words b k) s).quiet (hout h7)
          · rfl
        have hfree := walk_free fp s (s.words b k)
        simp only [hsame]
        exact ⟨fun hq => hfree.quiet (hq hne).1, fun hq => hfree.grows fun hbad =>
          hq fun _ => ⟨hbad, hout⟩⟩
      · obtain ⟨h7, hnot⟩ := Classical.not_imp.mp hout
        simp only [if_pos h7]
        refine ⟨fun hq => absurd (hq hne).2 hout, fun _ => ?_⟩
        exact ((walk_freeWords fp (s.words b k) s).grows hnot).trans_le ((walk_free fp _ _).le rfl)
    · next hzero => exact ⟨fun _ => rfl, fun hq => absurd (fun hne => absurd hne hzero) hq⟩
  exact walk_foldl hturn (down 257) s

/-- An address is freed with all below it. -/
theorem walk_freeAddr (fp : Super) (s : FileDev) (i : ℕ) :
    Walk (fp.AddrOutside s i) s { s with i_addr := update s.i_addr i 0 } (fp.freeAddr s i) := by
  unfold freeAddr
  split
  · next hne =>
    have hindirect := walk_freeIndirect fp i (s.i_addr i) s
    by_cases hout : s.ilarg = true → fp.IndirectOutside s i (s.i_addr i)
    · have hsame : (if s.ilarg then fp.freeIndirect i (s.i_addr i) s else s) = s := by
        split
        · next hlarge => exact hindirect.quiet (hout hlarge)
        · rfl
      have hfree := walk_free fp s (s.i_addr i)
      simp only [hsame]
      refine ⟨fun hq => ?_, fun hq => hfree.grows fun hbad => hq fun _ => ⟨hbad, hout⟩⟩
      rw [hfree.quiet (hq hne).1]
    · obtain ⟨hlarge, hnot⟩ := Classical.not_imp.mp hout
      simp only [if_pos hlarge]
      refine ⟨fun hq => absurd (hq hne).2 hout, fun _ => ?_⟩
      exact (hindirect.grows hnot).trans_le ((walk_free fp _ _).le rfl)
  · next hzero =>
    refine ⟨fun _ => ?_, fun hq => absurd (fun hne => absurd hne hzero) hq⟩
    rw [← not_not.mp hzero, update_eq_self]

/-- The places one after another: only its own place changes in a turn. -/
theorem walk_places (fp : Super) {is : List ℕ} (his : is.Nodup) (s : FileDev) :
    Walk (∀ i ∈ is, fp.AddrOutside s i) s
      { s with i_addr := fun i => if i ∈ is then 0 else s.i_addr i } (is.foldl fp.freeAddr s) := by
  induction is generalizing s with
  | nil => exact ⟨fun _ => by simp, fun hq => absurd (fun i hi => by cases hi) hq⟩
  | cons i is ih =>
    obtain ⟨hi, his⟩ := List.nodup_cons.mp his
    have haddr := walk_freeAddr fp s i
    rw [List.foldl_cons, List.forall_mem_cons]
    by_cases hout : fp.AddrOutside s i
    · rw [haddr.quiet hout]
      have hrest := ih his { s with i_addr := update s.i_addr i 0 }
      -- a place that is cleared says nothing about the others
      have hiff : (∀ j ∈ is, fp.AddrOutside { s with i_addr := update s.i_addr i 0 } j) ↔
          ∀ j ∈ is, fp.AddrOutside s j := by
        refine forall₂_congr fun j hj => ?_
        have hji : j ≠ i := fun hji => hi (hji ▸ hj)
        simp only [AddrOutside, update_of_ne hji]
        rfl
      rw [hiff] at hrest
      refine ⟨fun hq => ?_, fun hq => hrest.grows fun hall => hq ⟨hout, hall⟩⟩
      rw [hrest.quiet hq.2]
      congr 1
      funext j
      rcases eq_or_ne j i with rfl | hji
      · simp
      · simp [hji]
    · refine ⟨fun hq => absurd hq.1 hout, fun _ => ?_⟩
      exact (haddr.grows hout).trans_le ((ih his _).le rfl)

/-- No block of the device is in the file, or what is taken for it. -/
def Outside (fp : Super) (s : FileDev) : Prop := ∀ i ∈ down 8, fp.AddrOutside s i

theorem walk_itrunc (fp : Super) (s : FileDev) : Walk (fp.Outside s) s
    { s with
      ilarg := false
      i_addr := fun i => if i ∈ down 8 then 0 else s.i_addr i
      i_size := 0 } (fp.itrunc s) := by
  have hdown : (down 8).Nodup := List.nodup_reverse.mpr List.nodup_range
  have hplaces := walk_places fp hdown s
  unfold Outside itrunc
  generalize down 8 = is at hplaces ⊢
  refine ⟨fun hq => ?_, fun hq => hplaces.grows hq⟩
  rw [hplaces.quiet hq]

end Super

/-! ## What a failed read leaves -/

/-- The words of a block after some were put into it. -/
theorem Block.word_putWords (b : Block) (base n : ℕ) (w : ℕ → BitVec 16) (j : ℕ) :
    (b.putWords base n w).word j = if base ≤ j ∧ j < base + n then w (j - base) else b.word j := by
  induction n with
  | zero =>
    rw [if_neg (by omega)]
    rfl
  | succ n ih =>
    have hsucc : b.putWords base (n + 1) w = (b.putWords base n w).setWord (base + n) (w n) := by
      rw [putWords, List.range_succ, List.foldl_append]
      rfl
    rw [hsucc]
    rcases eq_or_ne j (base + n) with rfl | hne
    · rw [word_setWord_self, if_pos (by omega), Nat.add_sub_cancel_left]
    · rw [word_setWord_of_ne _ _ hne, ih]
      have hiff : base ≤ j ∧ j < base + n ↔ base ≤ j ∧ j < base + (n + 1) := by omega
      simp only [hiff]

namespace IgetSys

variable {E : DiskErrors} {s : IgetSys} {p : InodePtr} {i : Inode} {ino : ℤ}

/-- The inode that was set. -/
@[simp]
theorem inode_setInode (s : IgetSys) (p : InodePtr) (i : Inode) : (s.setInode p i).inode p = i :=
  update_self ..

/-- The other inodes stay. -/
theorem inode_setInode_of_ne {q : InodePtr} (hq : q ≠ p) (i : Inode) :
    (s.setInode p i).inode q = s.inode q := update_of_ne hq ..

/-- `geterror` sets an error if the buffer has one. -/
theorem geterror_eq (s : IgetSys) (e : Option ℕ) : ∃ u_error, s.geterror e = { s with u_error } ∧
    (s.u_error ≠ 0 ∨ e.isSome → u_error ≠ 0) := by
  cases e with
  | none => exact ⟨s.u_error, rfl, fun h => h.resolve_right Bool.false_ne_true⟩
  | some b_error =>
    refine ⟨_, rfl, fun _ => ?_⟩
    split
    · decide
    · next hne => exact hne

/-- A free inode is recorded unless the list is locked or full. -/
theorem ifree_eq (s : IgetSys) (ino : ℤ) : ∃ s_inode, s.ifree ino = { s with s_inode } ∧
    (s_inode = s.s_inode ↔ s.s_ilock = true ∨ s.s_inode.1.length = 100) := by
  have hle := s.s_inode.2
  unfold ifree
  split
  · next h =>
    refine ⟨_, rfl, iff_of_false (fun heq => ?_) ?_⟩
    · have hlen := congrArg (fun l => l.1.length) heq
      simp at hlen
    · rintro (hlock | hfull)
      · rw [h.1] at hlock
        cases hlock
      · omega
  · next h =>
    refine ⟨s.s_inode, rfl, iff_of_true rfl ?_⟩
    by_contra hnot
    obtain ⟨hlock, hfull⟩ := not_or.mp hnot
    exact h ⟨Bool.eq_false_iff.mpr hlock, by omega⟩

/-- `iupdat` writes one block at most. -/
theorem iupdat_eq (E : DiskErrors) (s : IgetSys) (p : InodePtr) :
    ∃ disk u_error, s.iupdat E p = { s with disk, u_error } ∧ (s.u_error ≠ 0 → u_error ≠ 0) ∧
      disk = if ((s.inode p).iupd || (s.inode p).iacc) && !s.s_ronly && E.bwrite.isNone then
          update s.disk (inodeBlock (s.inode p).i_number) (s.updated (s.inode p)
            ((E.iupdat.map Prod.snd).getD (s.disk (inodeBlock (s.inode p).i_number))))
        else s.disk := by
  unfold iupdat
  by_cases hwrite : ((s.inode p).iupd || (s.inode p).iacc) && !s.s_ronly
  · simp only [hwrite, if_true, Bool.true_and]
    obtain ⟨u, hu, hne⟩ := s.geterror_eq (E.iupdat.map Prod.fst)
    rw [hu]
    by_cases hbw : E.bwrite.isNone
    · simp only [hbw, if_true]
      obtain ⟨u', hu', hne'⟩ := geterror_eq { s with
        disk := update s.disk (inodeBlock (s.inode p).i_number) (s.updated (s.inode p)
          ((E.iupdat.map Prod.snd).getD (s.disk (inodeBlock (s.inode p).i_number))))
        u_error := u } E.bwrite
      exact ⟨_, u', hu', fun h0 => hne' (.inl (hne (.inl h0))), rfl⟩
    · simp only [hbw, Bool.false_eq_true, if_false]
      obtain ⟨u', hu', hne'⟩ := geterror_eq { s with u_error := u } E.bwrite
      exact ⟨s.disk, u', hu', fun h0 => hne' (.inl (hne (.inl h0))), rfl⟩
  · simp only [hwrite, Bool.false_eq_true, if_false, Bool.false_and]
    exact ⟨s.disk, s.u_error, rfl, id, rfl⟩

/-- The last reference is given up: what `release` and `iupdat` do is all that happens besides. -/
theorem iput_last (hcount : (s.inode p).i_count = 1) :
    ∃ t : IgetSys, t = (s.setInode p { s.inode p with ilock := true }).release p ∧
      (s.iput E p).disk = (t.iupdat E p).disk ∧ (s.iput E p).free = t.free ∧
      (s.iput E p).s_inode = t.s_inode ∧ (s.iput E p).u_error = (t.iupdat E p).u_error ∧
      (∀ q, q ≠ p → (s.iput E p).inode q = t.inode q) ∧
      ((s.iput E p).inode p).i_count = (t.inode p).i_count + -1#8 := by
  refine ⟨_, rfl, ?_⟩
  obtain ⟨disk, u_error, heq, -⟩ := iupdat_eq E
    ((s.setInode p { s.inode p with ilock := true }).release p) p
  unfold iput
  simp only [if_pos hcount, heq]
  refine ⟨rfl, rfl, rfl, rfl, fun q hq => ?_, ?_⟩
  · rw [inode_setInode_of_ne hq, inode_setInode_of_ne hq]
  · rw [inode_setInode, inode_setInode]

theorem release_linked (h : 0 < (s.inode p).i_nlink.toInt) : s.release p = s :=
  if_neg (not_le.mpr h)

/-- What `release` does besides what `itrunc` does to the blocks: the slot has the fields `i`, and
the inode is recorded as a free one, if it can be. -/
structure Released (s : IgetSys) (p : InodePtr) (i : Inode) (r : IgetSys) : Prop where
  slot : r.inode p = i
  others : ∀ q, q ≠ p → r.inode q = s.inode q
  s_inode : r.s_inode = s.s_inode ↔ s.s_ilock = true ∨ s.s_inode.1.length = 100
  s_ronly : r.s_ronly = s.s_ronly
  time : r.time = s.time
  u_error : r.u_error = s.u_error

/-- The mode of a device keeps the addresses from `itrunc`. -/
theorem release_device (h : (s.inode p).i_nlink.toInt ≤ 0)
    (hdev : (s.inode p).i_mode &&& IFCHR ≠ 0) :
    Released s p { s.inode p with i_mode := 0 } (s.release p) ∧ (s.release p).disk = s.disk ∧
      (s.release p).free = s.free := by
  have heq : s.release p = (s.setInode p { s.inode p with i_mode := 0 }).ifree
      (s.inode p).i_number := by
    unfold release itrunc
    simp only [if_pos h, if_pos hdev, inode_setInode]
  obtain ⟨s_inode, hifree, hiff⟩ := ifree_eq (s.setInode p { s.inode p with i_mode := 0 })
    (s.inode p).i_number
  rw [heq, hifree]
  exact ⟨⟨inode_setInode .., fun q hq => inode_setInode_of_ne hq _, hiff, rfl, rfl, rfl⟩, rfl, rfl⟩

/-- A file without links is truncated, and its inode is free. -/
theorem release_file (h : (s.inode p).i_nlink.toInt ≤ 0)
    (hdev : ¬ (s.inode p).i_mode &&& IFCHR ≠ 0) {f : FileDev}
    (hf : s.fp.itrunc (s.file (s.inode p)) = f) :
    Released s p { s.inode p with
        i_mode := 0, i_size0 := 0, i_size1 := 0, i_addr := fun k => f.i_addr k, iupd := true }
      (s.release p) ∧ (s.release p).disk = f.disk ∧ (s.release p).free = f.free := by
  generalize hi : ({ s.inode p with
    i_mode := 0, i_size0 := 0, i_size1 := 0, i_addr := fun k => f.i_addr k, iupd := true } :
      Inode) = i
  have heq : s.release p =
      ({ s.setInode p i with disk := f.disk, free := f.free } : IgetSys).ifree
        (s.inode p).i_number := by
    unfold release itrunc
    simp only [if_pos h, if_neg hdev, hf, setInode, update_self, update_idem, ← hi]
  obtain ⟨s_inode, hifree, hiff⟩ := ifree_eq
    ({ s.setInode p i with disk := f.disk, free := f.free } : IgetSys) (s.inode p).i_number
  rw [heq, hifree]
  exact ⟨⟨inode_setInode .., fun q hq => inode_setInode_of_ne hq _, hiff, rfl, rfl, rfl⟩, rfl, rfl⟩

end IgetSys

/-- `NULL` and an error are returned, and nothing has changed but the slot, which is free. -/
structure NoDamage (s : IgetSys) (ino : ℤ) (x : Option InodePtr × IgetSys) : Prop where
  null : x.1 = none
  u_error : x.2.u_error ≠ 0
  dinode : ∀ k < 16, (x.2.disk (inodeBlock ino)).word (inodeWord ino + k) =
    (s.disk (inodeBlock ino)).word (inodeWord ino + k)
  s_inode : x.2.s_inode = s.s_inode
  free : x.2.free = s.free
  others : ∀ q, s.findFree ≠ some q → x.2.inode q = s.inode q
  slot : ∀ p, s.findFree = some p → (x.2.inode p).i_count = 0

namespace IgetSys

variable {E : DiskErrors} {s : IgetSys} {p : InodePtr} {dev ino : ℤ}

/-- The words that go to the disk for a slot that `itrunc` has been through, into the buffer `b`. -/
def emptied (s : IgetSys) (i : Inode) (ino : ℤ) (b : Block) (k : ℕ) : BitVec 16 :=
  if k < 12 then
    { i.toDinode with
      i_mode := 0, i_size0 := 0, i_size1 := 0, i_addr := fun _ => 0 : Dinode }.word k
  else if k < 14 then b.word (inodeWord ino + k)
  else s.time (k - 14)

/-- The fields `i` of the last occupant, without links, do no harm: there is no room for an inode on
the free list; and either the mode is that of a device, or no block of the device is under the
addresses, and nothing is written to the disk or only what is there. -/
def Harmless (E : DiskErrors) (s : IgetSys) (i : Inode) (ino : ℤ) : Prop :=
  (s.s_ilock = true ∨ s.s_inode.1.length = 100) ∧
    (i.i_mode &&& IFCHR ≠ 0 ∨ s.fp.Outside (s.file i) ∧
      (s.s_ronly = true ∨ E.bwrite.isSome = true ∨ ∀ k < 16,
        s.emptied i ino ((E.iupdat.map Prod.snd).getD (s.disk (inodeBlock ino))) k =
          (s.disk (inodeBlock ino)).word (inodeWord ino + k)))

/-- The inode on the disk, after the file has been emptied. -/
theorem updated_emptied {t : IgetSys} {i i' : Inode} (hnumber : i'.i_number = ino)
    (hiacc : i'.iacc = false) (hiupd : i'.iupd = true) (htime : t.time = s.time)
    (hdinode : i'.toDinode =
      { i.toDinode with i_mode := 0, i_size0 := 0, i_size1 := 0, i_addr := fun _ => 0 })
    (b : Block) {k : ℕ} (hk : k < 16) :
    (t.updated i' b).word (inodeWord ino + k) = s.emptied i ino b k := by
  simp only [updated, hnumber, hiacc, hiupd, Bool.false_eq_true, if_false, if_true,
    Block.word_putWords, htime, hdinode, emptied]
  by_cases h12 : k < 12
  · rw [if_neg (by omega), if_pos (by omega), if_pos h12, Nat.add_sub_cancel_left]
  · rw [if_neg h12]
    by_cases h14 : k < 14
    · rw [if_neg (by omega), if_neg (by omega), if_pos h14]
    · rw [if_pos (by omega), if_neg h14]
      congr 1
      omega

/-- What is left to look at when `release` is over. -/
theorem noDamage_iput {t r : IgetSys} (hfree : s.findFree = some p)
    (hcount : (t.inode p).i_count = 1)
    (hr : (t.setInode p { t.inode p with ilock := true }).release p = r)
    (hrcount : (r.inode p).i_count = 1) (hothers : ∀ q, q ≠ p → r.inode q = s.inode q)
    (herr : r.u_error ≠ 0) :
    NoDamage s ino (none, t.iput E p) ↔ (∀ k < 16,
        ((r.iupdat E p).disk (inodeBlock ino)).word (inodeWord ino + k) =
          (s.disk (inodeBlock ino)).word (inodeWord ino + k)) ∧
      r.s_inode = s.s_inode ∧ r.free = s.free := by
  -- what `iput` of the only reference does to the disk and the tables
  obtain ⟨r', hr', hdisk, hlist, hinode, hu_error, hrest, hslot⟩ := iput_last (E := E) hcount
  obtain rfl : r' = r := hr'.trans hr
  obtain ⟨disk, u_error, heq, hne, -⟩ := iupdat_eq E r' p
  constructor
  · -- the words of the disk inode are those that `iupdat` leaves
    intro h
    refine ⟨fun k hk => ?_, hinode ▸ h.s_inode, hlist ▸ h.free⟩
    rw [← hdisk]
    exact h.dinode k hk
  -- the fields of `NoDamage`
  · rintro ⟨hwords, hs_inode, hs_free⟩
    refine ⟨rfl, ?_, fun k hk => ?_, hinode.trans hs_inode, hlist.trans hs_free, fun q hq => ?_,
      fun p' hp' => ?_⟩
    · rw [hu_error, heq]
      exact hne herr
    · rw [hdisk]
      exact hwords k hk
    -- the slots other than the claimed one
    · have hqp : q ≠ p := fun hqp => hq (hqp ▸ hfree)
      exact (hrest q hqp).trans (hothers q hqp)
    -- the claimed slot itself is free again
    · obtain rfl : p = p' := Option.some.inj (hfree.symm.trans hp')
      rw [hslot, hrcount]
      rfl

/-- An inode that has not changed is not written. -/
theorem iupdat_clean (hiupd : (s.inode p).iupd = false) (hiacc : (s.inode p).iacc = false) :
    s.iupdat E p = s := by
  simp [iupdat, hiupd, hiacc]

/-- What `iupdat` leaves on the disk of an inode that has been truncated. -/
theorem iupdat_emptied (E : DiskErrors) (ino : ℤ) {t : IgetSys} {i : Inode}
    (hdisk : t.disk = s.disk) (htime : t.time = s.time)
    (hronly : t.s_ronly = s.s_ronly) (hnumber : (t.inode p).i_number = ino)
    (hiacc : (t.inode p).iacc = false) (hiupd : (t.inode p).iupd = true)
    (hdinode : (t.inode p).toDinode =
      { i.toDinode with i_mode := 0, i_size0 := 0, i_size1 := 0, i_addr := fun _ => 0 }) :
    (∀ k < 16, ((t.iupdat E p).disk (inodeBlock ino)).word (inodeWord ino + k) =
        (s.disk (inodeBlock ino)).word (inodeWord ino + k)) ↔
      (s.s_ronly = true ∨ E.bwrite.isSome = true ∨ ∀ k < 16,
        s.emptied i ino ((E.iupdat.map Prod.snd).getD (s.disk (inodeBlock ino))) k =
          (s.disk (inodeBlock ino)).word (inodeWord ino + k)) := by
  obtain ⟨disk, u_error, heq, -, hwritten⟩ := iupdat_eq E t p
  rw [hiupd, hiacc, hronly, hdisk, hnumber] at hwritten
  rw [heq]
  dsimp only
  cases hro : s.s_ronly with
  | true =>
    -- nothing is written to a volume that is read only
    have hsame : disk = s.disk := by simpa [hro] using hwritten
    rw [hsame]
    exact iff_of_true (fun _ _ => rfl) (.inl rfl)
  | false =>
    cases hbw : E.bwrite with
    | some b_error =>
      -- or when the write fails
      have hsame : disk = s.disk := by simpa [hbw] using hwritten
      rw [hsame]
      exact iff_of_true (fun _ _ => rfl) (.inr (.inl rfl))
    | none =>
      simp only [hro, hbw, Bool.true_or, Bool.not_false, Option.isNone_none, Bool.and_self,
        if_true] at hwritten
      simp only [hwritten, update_self, Bool.false_eq_true, Option.isSome_none, false_or]
      refine forall₂_congr fun k hk => ?_
      rw [updated_emptied hnumber hiacc hiupd htime hdinode _ hk]

/-- `iget` has claimed a free slot, and its `bread` has failed. -/
structure Claimed (s : IgetSys) (p : InodePtr) (dev ino : ℤ) (t : IgetSys) : Prop where
  isFree : s.findFree = some p
  count : (s.inode p).i_count = 0
  inode : t.inode p = s.claimed p dev ino
  others : ∀ q, q ≠ p → t.inode q = s.inode q
  disk : t.disk = s.disk
  free : t.free = s.free
  fp : t.fp = s.fp
  s_inode : t.s_inode = s.s_inode
  s_ilock : t.s_ilock = s.s_ilock
  s_ronly : t.s_ronly = s.s_ronly
  time : t.time = s.time
  u_error : t.u_error ≠ 0

section Claimed

variable {t : IgetSys} (h : Claimed s p dev ino t)
include h

theorem Claimed.one : (t.inode p).i_count = 1 := by
  rw [h.inode]
  show (s.inode p).i_count + 1 = 1
  rw [h.count]
  rfl

theorem Claimed.lock : t.setInode p { t.inode p with ilock := true } = t := by
  have hlocked : ({ t.inode p with ilock := true } : Inode) = t.inode p := by
    rw [h.inode]
    rfl
  rw [hlocked, setInode, update_eq_self]

/-- With links the error does no damage. -/
theorem Claimed.noDamage_linked (hlinked : 0 < (s.inode p).i_nlink.toInt) :
    NoDamage s ino (none, t.iput E p) := by
  have hr : (t.setInode p { t.inode p with ilock := true }).release p = t := by
    rw [h.lock, release_linked (by rw [h.inode]; exact hlinked)]
  rw [noDamage_iput h.isFree h.one hr h.one h.others h.u_error,
    iupdat_clean (by rw [h.inode]; rfl) (by rw [h.inode]; rfl), h.disk]
  exact ⟨fun _ _ => rfl, h.s_inode, h.free⟩

/-- For a device without links the error does no damage exactly if its number is not recorded. -/
theorem Claimed.noDamage_device (hlinks : (s.inode p).i_nlink.toInt ≤ 0)
    (hdev : (s.inode p).i_mode &&& IFCHR ≠ 0) : NoDamage s ino (none, t.iput E p) ↔
      s.s_ilock = true ∨ s.s_inode.1.length = 100 := by
  obtain ⟨hreleased, hdisk, hfree⟩ := release_device (s := t) (p := p)
    (by rw [h.inode]; exact hlinks) (by rw [h.inode]; exact hdev)
  generalize hr : t.release p = r at hreleased hdisk hfree
  have hclean : (r.inode p).iupd = false ∧ (r.inode p).iacc = false ∧ (r.inode p).i_count = 1 := by
    rw [hreleased.slot]
    exact ⟨by rw [h.inode]; rfl, by rw [h.inode]; rfl, h.one⟩
  have hiff := hreleased.s_inode
  rw [h.s_inode, h.s_ilock] at hiff
  rw [noDamage_iput h.isFree h.one (by rw [h.lock, hr]) hclean.2.2
    (fun q hq => (hreleased.others q hq).trans (h.others q hq))
    (by rw [hreleased.u_error]; exact h.u_error), iupdat_clean hclean.1 hclean.2.1, hdisk, h.disk,
    hfree, h.free, hiff]
  exact ⟨fun hall => hall.2.1, fun hlist => ⟨fun _ _ => rfl, hlist, rfl⟩⟩

/-- For a file without links it also depends on the blocks and on the inode on the disk. -/
theorem Claimed.noDamage_file (hlinks : (s.inode p).i_nlink.toInt ≤ 0)
    (hdev : ¬ (s.inode p).i_mode &&& IFCHR ≠ 0) : NoDamage s ino (none, t.iput E p) ↔
      (s.s_ilock = true ∨ s.s_inode.1.length = 100) ∧ s.fp.Outside (s.file (s.inode p)) ∧
        (s.s_ronly = true ∨ E.bwrite.isSome = true ∨ ∀ k < 16,
          s.emptied (s.inode p) ino ((E.iupdat.map Prod.snd).getD (s.disk (inodeBlock ino))) k =
            (s.disk (inodeBlock ino)).word (inodeWord ino + k)) := by
  -- the file of the slot is the one it was claimed for
  have hfile : t.file (t.inode p) = s.file (s.inode p) := by
    simp only [IgetSys.file, h.inode, h.disk, h.free, claimed]
  have hwalk := Super.walk_itrunc s.fp (s.file (s.inode p))
  generalize hf : s.fp.itrunc (s.file (s.inode p)) = f at hwalk
  obtain ⟨hreleased, hdisk, hfree⟩ := release_file (s := t) (p := p)
    (by rw [h.inode]; exact hlinks) (by rw [h.inode]; exact hdev) (by rw [h.fp, hfile, hf])
  generalize hr : t.release p = r at hreleased hdisk hfree
  have hiff := hreleased.s_inode
  rw [h.s_inode, h.s_ilock] at hiff
  have hone : (r.inode p).i_count = 1 := by
    rw [hreleased.slot]
    exact h.one
  -- what `iput` leaves is decided by what `release` left
  rw [noDamage_iput h.isFree h.one (by rw [h.lock, hr]) hone
    (fun q hq => (hreleased.others q hq).trans (h.others q hq))
    (by rw [hreleased.u_error]; exact h.u_error), hiff, hfree]
  -- the blocks are outside the volume, or some were freed
  by_cases hout : s.fp.Outside (s.file (s.inode p))
  · have hquiet := hwalk.quiet hout
    have hwords := iupdat_emptied E ino (s := s) (p := p) (t := r) (i := s.inode p)
      (by rw [hdisk, hquiet]; rfl) (by rw [hreleased.time, h.time])
      (by rw [hreleased.s_ronly, h.s_ronly]) (by rw [hreleased.slot, h.inode]; rfl)
      (by rw [hreleased.slot, h.inode]; rfl) (by rw [hreleased.slot]) ?_
    · rw [hwords, hquiet]
      constructor
      · rintro ⟨hwritten, hlist, -⟩
        exact ⟨hlist, hout, hwritten⟩
      · rintro ⟨hlist, -, hwritten⟩
        exact ⟨hwritten, hlist, rfl⟩
    · rw [hreleased.slot, h.inode, hquiet]
      have hzero : (fun k : Fin 8 => if (k : ℕ) ∈ Super.down 8 then (0 : BitVec 16)
          else (s.file (s.inode p)).i_addr k) = fun _ => 0 := by
        -- every address is cleared
        funext k
        exact if_pos (Node.mem_down.mpr k.isLt)
      simp only [hzero]
      rfl
  · refine iff_of_false (fun hall => ?_) fun hall => hout hall.2.1
    have hgrows := hwalk.grows hout
    rw [hall.2.2] at hgrows
    exact absurd hgrows (lt_irrefl _)

end Claimed

/-- A failed read does no damage if the claimed slot was last used for a file with links, or if the
fields it has are harmless otherwise. -/
theorem noDamage_iff (E : DiskErrors) (s : IgetSys) (dev ino : ℤ)
    (hcore : s.findInode dev ino = none) (herr : E.iget.isSome = true) :
    (∃ x, s.iget E dev ino = some x ∧ NoDamage s ino x) ↔
      ∀ p, s.findFree = some p →
        0 < (s.inode p).i_nlink.toInt ∨ s.Harmless E (s.inode p) ino := by
  -- there is a free slot, or there is none
  cases hfree : s.findFree with
  | none =>
    have higet : s.iget E dev ino = some (none, { s with u_error := ENFILE }) := by
      simp only [iget, hcore, hfree]
    refine iff_of_true ⟨_, higet, rfl, show ENFILE ≠ 0 by decide, fun _ _ => rfl, rfl, rfl,
      fun _ _ => rfl, fun p hp => ?_⟩ fun p hp => nomatch hp
    rw [hfree] at hp
    cases hp
  | some p =>
    have hcount : (s.inode p).i_count = 0 := by simpa using List.find?_some hfree
    obtain ⟨u_error, hu, hne⟩ := geterror_eq (s.setInode p (s.claimed p dev ino)) E.iget
    have higet : s.iget E dev ino =
        some (none, iput E { s.setInode p (s.claimed p dev ino) with u_error } p) := by
      simp only [iget, hcore, hfree, hu, herr, if_true]
    -- the claimed slot on the way into `iput`
    have hclaimed : Claimed s p dev ino { s.setInode p (s.claimed p dev ino) with u_error } :=
      ⟨hfree, hcount, inode_setInode .., fun q hq => inode_setInode_of_ne hq _, rfl, rfl, rfl, rfl,
        rfl, rfl, rfl, hne (.inr herr)⟩
    rw [higet]
    simp only [Option.some.injEq, exists_eq_left', forall_eq']
    -- links left: the inode is only written back
    by_cases hlinked : 0 < (s.inode p).i_nlink.toInt
    · exact iff_of_true (hclaimed.noDamage_linked hlinked) (.inl hlinked)
    · rw [or_iff_right hlinked, Harmless]
      -- no links: a device, or a file to be truncated
      by_cases hdev : (s.inode p).i_mode &&& IFCHR ≠ 0
      · rw [hclaimed.noDamage_device (not_lt.mp hlinked) hdev]
        exact ⟨fun hlist => ⟨hlist, .inl hdev⟩, fun hall => hall.1⟩
      · rw [hclaimed.noDamage_file (not_lt.mp hlinked) hdev, or_iff_right hdev]

/-- A block of zeros has zeros behind it. -/
theorem zero_pad (b : BitVec 16) (k : ℕ) (_ : 512 ≤ k) : (fun _ => Block.zero : _ → Block) b k = 0 :=
  rfl

theorem length_nil_le : ([] : List ℤ).length ≤ 100 := Nat.zero_le 100

/-- A table whose slots all have the same fields, and a device whose fifth inode is a file with one
link. -/
def uniform (i : Inode) : IgetSys where
  inode _ := i
  disk b := if b = 2 then Block.zero.putWords (inodeWord 5) 2 fun k => if k = 0 then 0x8000 else 1
    else Block.zero
  free := []
  fp := ⟨10, 100, fun _ => false, fun _ => Block.zero, zero_pad⟩
  s_inode := ⟨[], length_nil_le⟩
  s_ilock := false
  s_ronly := false
  time _ := 0
  u_error := 0

/-- The read of `iget` fails, and no later transfer. -/
def firstFails : DiskErrors := ⟨some 0, none, none⟩

theorem noDamage_iff_uniform :
    ∃ x, (uniform { i_nlink := 1 }).iget firstFails 1 5 = some x ∧
      NoDamage (uniform { i_nlink := 1 }) 5 x :=
  (noDamage_iff firstFails (uniform { i_nlink := 1 }) 1 5 (by decide +kernel) rfl).mpr
    fun _ _ => .inl (by decide : 0 < (1 : BitVec 8).toInt)

/-- At boot, the slots have no links: the inode that could not be read is recorded as a free one. -/
theorem not_noDamage_uniform : ¬ ∀ (E : DiskErrors) (s : IgetSys) (dev ino : ℤ),
    s.findInode dev ino = none → E.iget.isSome = true →
      ∃ x, s.iget E dev ino = some x ∧ NoDamage s ino x := by
  intro hall
  obtain ⟨x, hx, hno⟩ := hall firstFails (uniform {}) 1 5 (by decide +kernel) rfl
  have hfreed : ((uniform {}).iget firstFails 1 5).any fun x => x.2.s_inode.1 = [5] := by
    decide +kernel
  rw [hx, Option.any_some, hno.s_inode] at hfreed
  exact absurd (of_decide_eq_true hfreed) (by decide)

end IgetSys

end UnixV6
