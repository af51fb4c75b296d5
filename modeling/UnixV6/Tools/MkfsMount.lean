import UnixV6.Tools.MkfsRead
import UnixV6.Dmr.Swap
import UnixV6.Ken.AllocAtomic

/-!
# The kernel on a device that `mkfs` has made

The super block is read by `iinit` or `smount`, and processes call `alloc` and `free` on the volume.
The free list that the kernel finds is sound, and no interleaving of its calls touches a file that
`mkfs` has copied.
-/

open Function

namespace UnixV6

/-! ## The super block in core -/

/-- The super block as the kernel takes it from its block. -/
def Filsys.ofBlock (b : Block) : Filsys where
  s_isize := (b.word 0).toInt
  s_fsize := (b.word 1).toInt
  s_nfree := (b.word 2).toInt
  s_free i := (b.word (3 + i)).toInt
  s_ninode := (b.word 103).toInt
  s_flock := false
  s_fmod := b 410 ≠ 0

/-- The entries that are in use are blocks of the list, apart from the end mark. -/
theorem FreeStack.entries {blk : ℤ → ℕ → ℤ} {nfree : ℤ} {free : ℕ → ℤ} {st : List ℤ}
    (h : FreeStack blk nfree free st) {i : ℕ} (hi : (i : ℤ) < nfree) :
    free i = 0 ∨ free i ∈ st := by
  have htops : ∀ n, 0 < i → i ≤ n → free i ∈ tops free n := by
    intro n hpos hle
    induction n with
    | zero => omega
    | succ n ih =>
      rcases hle.eq_or_lt with rfl | hlt
      · exact List.mem_cons_self
      · exact List.mem_cons_of_mem _ (ih (by omega))
  cases h with
  | empty => omega
  | @last n _ hn hend =>
    rcases Nat.eq_zero_or_pos i with rfl | hpos
    · exact .inl hend
    · exact .inr (htops n hpos (by omega))
  | @link n _ st hn hlink h =>
    apply Or.inr
    rcases Nat.eq_zero_or_pos i with rfl | hpos
    · simp
    · exact List.mem_append_left _ (htops n hpos (by omega))

namespace Flock

variable {P : Type*}

/-- The bytes of the blocks. -/
def image (s : Flock P) (b : ℕ) : Block := sectorByte fun k => BitVec.ofInt 16 (s.blk b k)

/-- A block with equal words is an equal block. -/
theorem image_eq {s : Flock P} {image : ℕ → Block} {b : ℕ}
    (h : s.blk b = Mkfs.words image b) : s.image b = image b := by
  funext i
  unfold Flock.image sectorByte
  rw [h]
  unfold Mkfs.words
  dsimp only
  rw [BitVec.ofInt_toInt, Int.toNat_natCast, Block.word]
  have hdiv : 2 * (i / 2) + i % 2 = i := Nat.div_add_mod i 2
  rcases Nat.mod_two_eq_zero_or_one i with hmod | hmod
  · rw [if_pos hmod, lobyte, BitVec.extractLsb'_append_eq_right]
    congr 1
    omega
  · rw [if_neg (by omega), hibyte, BitVec.extractLsb'_append_eq_left]
    congr 1
    omega

end Flock

namespace Mkfs

variable {E : Env} {s : St} {st : List ℤ} {P : Type*}

/-! ## The device after `main` -/

/-- The last thing that is written is the super block. -/
theorem superblock_main (fsys : List Byte) (fuel : ℕ) :
    Triple (fun _ => True) (main E fsys fuel) (fun _ s => s.image 1 = s.superblock)
      fun _ => True := by
  unfold main
  refine Triple.any.bind fun _ => Triple.any.bind fun _ => Triple.any.bind fun _ => ?_
  refine Triple.any.bind fun _ => Triple.any.bind fun _ => Triple.any.bind fun _ => ?_
  refine Triple.any.bind fun _ => Triple.any.bind fun _ => Triple.any.bind fun _ => ?_
  refine .of_forall fun s _ => Triple.get_bind ?_
  rw [wtfs_eq (by decide)]
  refine .modify fun s₁ hs₁ => ?_
  rw [hs₁]
  exact update_self 1 s.superblock s.image

/-- The volume when it has been mounted, and no process is in a call. -/
def St.mounted (s : St) (P : Type*) : Flock P where
  fp := .ofBlock (s.image 1)
  blk := words s.image
  used := ∅
  pc _ := .user

/-- The words of the superblock on the image. -/
theorem superblock_word (s : St) :
    s.superblock.word 0 = s.s_isize ∧ s.superblock.word 1 = s.s_fsize ∧
      s.superblock.word 2 = BitVec.ofInt 16 s.s_nfree ∧
      (∀ i < 100, s.superblock.word (3 + i) = BitVec.ofInt 16 (s.s_free i)) ∧
      s.superblock.word 103 = 0 := by
  unfold St.superblock
  refine ⟨?_, ?_, ?_, fun i hi => ?_, ?_⟩
  · rw [Block.word_putWords, if_neg (by omega), Block.word_putWords, if_pos (by omega)]
    rfl
  · rw [Block.word_putWords, if_neg (by omega), Block.word_putWords, if_pos (by omega)]
    rfl
  · rw [Block.word_putWords, if_neg (by omega), Block.word_putWords, if_pos (by omega)]
    rfl
  · rw [Block.word_putWords, if_pos (by omega), Nat.add_sub_cancel_left]
  · rw [Block.word_putWords, if_neg (by omega), Block.word_putWords, if_neg (by omega),
      Block.word_zero]

/-- The list that is found on the device is the one that `mkfs` has left, with every block in the
range that the kernel checks. -/
theorem ready_mounted (hblock : s.image 1 = s.superblock)
    (hfrees : Frees (s.s_isize.toNat + 2) s.s_fsize.toNat s st) (hfsize : s.s_fsize.toNat < 32768) :
    (s.mounted P).Ready st := by
  -- the words of the superblock as `mkfs` wrote them
  obtain ⟨hisize, hfs, hnfree, hfree, hninode⟩ := superblock_word s
  rw [← hblock] at hisize hfs hnfree hfree hninode
  obtain ⟨hcount₀, hcount⟩ := hfrees.stack.count
  -- a small number is its own 16-bit word
  have hshort : ∀ x : ℤ, 0 ≤ x → x < 32768 → (BitVec.ofInt 16 x).toInt = x := fun x h₀ h₁ => by
    rw [BitVec.toInt_ofInt, Int.bmod_eq_of_le (by omega) (by omega)]
  have hcounted : (s.mounted P).fp.s_nfree = s.s_nfree := by
    show ((s.image 1).word 2).toInt = _
    rw [hnfree, hshort _ hcount₀ (by omega)]
  -- the fields of `Ready`
  refine ⟨fun _ => rfl, rfl, ?_, ?_, hfrees.nodup, nofun, ?_⟩
  · show ((s.image 1).word 103).toInt ≤ 100
    rw [hninode]
    decide
  · rw [hcounted]
    refine hfrees.stack.congr_entries fun i hi => ?_
    show ((s.image 1).word (3 + i)).toInt = _
    rw [hfree i (by omega)]
    -- an entry is zero or a block of the list
    rcases hfrees.stack.entries hi with hzero | hmem
    · rw [hzero]
      rfl
    · have := hfrees.range _ hmem
      exact hshort _ (by omega) (by omega)
  · rintro b (hb | hb)
    · simp [St.mounted] at hb
    · obtain ⟨hlo, hhi⟩ := hfrees.range b hb
      -- the two sizes as the kernel compares them
      have hi : (s.mounted P).fp.s_isize = s.s_isize.toNat := by
        show ((s.image 1).word 0).toInt = _
        rw [hisize, BitVec.toInt_eq_toNat_of_lt (by omega)]
      have hf : (s.mounted P).fp.s_fsize = s.s_fsize.toNat := by
        show ((s.image 1).word 1).toInt = _
        rw [hfs, BitVec.toInt_eq_toNat_of_lt (by omega)]
      refine ⟨?_, by omega⟩
      unfold Filsys.badblock
      rw [hi, hf, Int.bmod_eq_of_le (by omega) (by omega)]
      simp only [decide_eq_false_iff_not, not_or]
      omega

/-- A file stays what it is while the blocks that are not free keep their bytes. -/
theorem Stored.image {lo hi : ℕ} {image' : ℕ → Block} {n : ℕ} {cs : List Byte} (hlo : 2 ≤ lo)
    (h : Stored lo hi s.image st n cs) (hst : ∀ b ∈ st, lo ≤ b) (hn : n ≤ bound lo)
    (hkept : ∀ b : ℕ, (b : ℤ) ∉ st → image' b = s.image b) : Stored lo hi image' st n cs := by
  refine h.mono (fun b h₁ h₂ hb => hkept _ ?_) (fun _ hb => hb) fun k _ => ?_
  · rwa [Int.toNat_of_nonneg (by omega)]
  · rw [hkept]
    intro hb
    have hbelow := inode_below hlo hn
    have := hst _ hb
    omega

variable [DecidableEq P]

/-- A device that `mkfs` completes is one on which the kernel can allocate, and whatever any number
of processes do there with `alloc`, `free` and the blocks that they are given, every file that has
been copied reads back at any time. -/
theorem mounted_files (E : Env) (fsys proto : List Byte) (fuel : ℕ) {s : St}
    (hrun : run E fsys proto fuel = .ok () s) (hsound : Sound s) (hfsize : s.s_fsize.toNat < 32768) :
    (∃ st, (s.mounted P).Ready st) ∧
      ∀ {es : List (Flock.Event P)} {t : Flock P}, Emits Flock.Step (s.mounted P) es t →
        ∀ x ∈ s.copied, x.2.length < 65536 → ReadsBack { s with image := t.image } x.1 x.2 := by
  have hguarded := (guarded_main (E := E) fsys fuel (start proto) ⟨rfl, rfl, rfl⟩).1 () s hrun
  have hblock := (superblock_main (E := E) fsys fuel (start proto) trivial).1 () s hrun
  have hkept := hguarded.kept hsound
  obtain ⟨st, hfrees, hstored⟩ := hkept.list
  have hready : (s.mounted P).Ready st := ready_mounted hblock hfrees hfsize
  refine ⟨⟨st, hready⟩, fun {es t} hemits x hx hlength => ?_⟩
  -- the bytes of a block that is not free are those that `mkfs` has written
  have himage : ∀ b : ℕ, (b : ℤ) ∉ st → t.image b = s.image b := by
    intro b hb
    apply Flock.image_eq
    refine Flock.blk_of_notMem hready hemits ?_
    rintro (hused | hfree)
    · simp [St.mounted] at hused
    · exact hb hfree
  have hn := (hkept.copied x hx).2.1
  have hafter : Stored (s.s_isize.toNat + 2) s.s_fsize.toNat t.image st x.1 x.2 :=
    (hstored x hx).image (by omega) (fun b hb => (hfrees.range b hb).1) (hn.trans hkept.fits) himage
  refine (Stored.reads_iff (s := { s with image := t.image }) hafter (Nat.succ_pos _) (by omega)
    ?_).mpr hlength
  exact (hn.trans hsound.inodes).trans (min_le_right _ _)

/-- A device of nine blocks, with a root directory of one file. -/
def hiFile : Env where
  files str := if str = [120] then some [104, 105] else none
  eof _ := 0
  lseek pos _ := pos

@[inherit_doc hiFile]
def hiProto : List Byte :=
  [98, 32, 57, 32, 49, 32, 48, 32, 100, 45, 45, 55, 55, 55, 32, 48, 32, 48, 32,
    97, 32, 45, 45, 45, 54, 52, 52, 32, 48, 32, 48, 32, 120, 32, 36, 32]

/-- `mkfs` of the small prototype succeeds and copies the file. -/
theorem run_hi : ∃ s, run hiFile [] hiProto 100 = .ok () s ∧ Sound s ∧ s.s_fsize.toNat < 32768 ∧
    (2, [104, 105]) ∈ s.copied := by
  have hrun : (run hiFile [] hiProto 100).okWith (fun _ s => (2, [104, 105]) ∈ s.copied ∧
      s.ino = 2 ∧ s.s_isize = 1 ∧ s.swap = 0 ∧ s.s_fsize = 9) = true := by decide +kernel
  obtain ⟨⟨⟩, s, hs, htest⟩ := EStateM.Result.exists_of_okWith hrun
  obtain ⟨hmem, hino, hisize, hswap, hfsize⟩ := of_decide_eq_true htest
  refine ⟨s, hs, ⟨?_, ?_, ?_⟩, ?_, hmem⟩
  · rw [hino, hisize]
    decide
  · rw [hswap]
    decide
  · rw [hfsize, hswap]
    decide
  · rw [hfsize]
    decide

/-- One of two processes asks for a block of the device. -/
theorem mounted_files_hi : ∃ (s : St) (es : List (Flock.Event (Fin 2))) (t : Flock (Fin 2)),
    Emits Flock.Step (s.mounted (Fin 2)) (.call 0 .alloc :: es) t ∧
      ReadsBack { s with image := t.image } 2 [104, 105] := by
  obtain ⟨s, hs, hsound, hfsize, hmem⟩ := run_hi
  have hcall : Emits Flock.Step (s.mounted (Fin 2))
      (.call 0 .alloc :: ((s.mounted (Fin 2)).call 0 .alloc).2)
      ((s.mounted (Fin 2)).call 0 .alloc).1 := .single ⟨.call 0 .alloc, trivial, rfl⟩
  obtain ⟨-, hfiles⟩ := mounted_files (P := Fin 2) hiFile [] hiProto 100 hs hsound hfsize
  exact ⟨s, _, _, hcall, hfiles hcall (2, [104, 105]) hmem (by decide)⟩

end Mkfs

end UnixV6
