import UnixV6.Ken.FileRead
import UnixV6.Tools.MkfsImage

/-!
# Files that `mkfs` copies, read by the kernel

`mkfs` counts the bytes of a file in `i_size1`, which has 16 bits; a file may have 255 blocks. So
the kernel delivers the file as it was, if and only if it has less than 65536 bytes.
-/

open Function

namespace UnixV6.Mkfs

variable {E : Env} {lo hi : ℕ} {s : St} {n : ℕ} {cs : List Byte}

/-- The file with the inode numbered `n`, when `iget` has read the inode from the image. The blocks
`free` are those that the kernel could allocate. -/
def St.file (s : St) (n : ℕ) (free : List (BitVec 16)) : FileDev :=
  let disk : BitVec 16 → Block := fun b => s.image b.toNat
  let d := Dinode.ofWords fun k => (disk (inodeBlock n)).word (inodeWord n + k)
  { ilarg := d.i_mode &&& ILARG ≠ 0
    i_addr := fun k => if h : k < 8 then d.i_addr ⟨k, h⟩ else 0
    i_size := d.i_size0 ++ d.i_size1
    disk := disk
    free := free }

/-- The size of the file is that of `cs`, and calls of `readi` from offset 0 on deliver `cs`, when
their counts are enough for it. -/
def ReadsBack (s : St) (n : ℕ) (cs : List Byte) : Prop :=
  ∀ free, (s.file n free).i_size.toNat = cs.length ∧
    ∀ mem calls, (∀ c ∈ calls, 0 ≤ c.2.toInt) → cs.length ≤ (calls.map (·.2.toNat)).sum →
      (s.file n free).reads mem calls 0 = cs

/-- The stored file as the kernel sees it. -/
theorem Stored.file_eq {st : List ℤ} (h : Stored lo hi s.image st n cs) (hn : n ≤ 32736)
    (free : List (BitVec 16)) : ∃ d bs, Held lo hi s.image st cs d bs ∧ s.file n free =
      { ilarg := d.i_mode &&& ILARG ≠ 0
        i_addr := fun k => if h : k < 8 then d.i_addr ⟨k, h⟩ else 0
        i_size := d.i_size0 ++ d.i_size1
        disk := fun b => s.image b.toNat
        free := free } := by
  obtain ⟨d, bs, hheld, hwords⟩ := h
  obtain ⟨hblock, hword⟩ := inode_place hn
  have hfound : Dinode.ofWords (fun k =>
      (s.image (inodeBlock n).toNat).word (inodeWord n + k)) = d := by
    rw [← d.ofWords_word]
    refine Dinode.ofWords_congr fun k hk => ?_
    rw [hblock, hword]
    exact hwords k (hk.trans (by decide))
  refine ⟨d, bs, hheld, ?_⟩
  unfold St.file
  dsimp only
  rw [hfound]

/-- A number of a block, as the kernel has it. -/
theorem block_number (hlo : 0 < lo) (hhi : hi ≤ 32768) {b : ℤ} (hb : lo ≤ b ∧ b < hi) :
    BitVec.ofInt 16 b ≠ 0 ∧ (BitVec.ofInt 16 b).toNat = b.toNat := by
  have htoNat : (BitVec.ofInt 16 b).toNat = b.toNat := by
    rw [BitVec.toNat_ofInt]
    omega
  refine ⟨fun hzero => ?_, htoNat⟩
  have hnat : (0 : BitVec 16).toNat = 0 := rfl
  rw [hzero, hnat] at htoNat
  omega

/-- `bmap` finds every block of the file. -/
theorem Held.bmap {image : ℕ → Block} {st : List ℤ} {d : Dinode} {bs : List ℤ}
    (h : Held lo hi image st cs d bs) (hlo : 0 < lo) (hhi : hi ≤ 32768) (free : List (BitVec 16))
    {f : FileDev} (hf : f =
      { ilarg := d.i_mode &&& ILARG ≠ 0
        i_addr := fun k => if h : k < 8 then d.i_addr ⟨k, h⟩ else 0
        i_size := d.i_size0 ++ d.i_size1
        disk := fun b => image b.toNat
        free := free }) {k : ℕ} (hk : k < bs.length) :
    f.bmap k = (BitVec.ofInt 16 (bs.getD k 0), f) := by
  have hcount := h.count
  have hmem := h.own _ (getD_mem hk 0)
  obtain ⟨hne, -⟩ := block_number hlo hhi ⟨hmem.1, hmem.2.1⟩
  rcases h.addr with ⟨hsmall, hlen, haddr⟩ | ⟨hlarge, ind, hind, haddr, hwords⟩
  · have hk8 : k < 8 := hk.trans_le hlen
    have hi_addr : f.i_addr k = BitVec.ofInt 16 (bs.getD k 0) := by
      rw [hf]
      exact (dif_pos hk8).trans (haddr ⟨k, hk8⟩ hk)
    have hilarg : f.ilarg = false := by
      rw [hf]
      exact decide_eq_false (not_not.mpr hsmall)
    unfold FileDev.bmap FileDev.fetchAddr
    rw [hilarg, if_neg Bool.false_ne_true, if_neg (not_not.mpr (Nat.div_eq_of_lt hk8)), hi_addr,
      if_pos hne]
  · obtain ⟨hind₀, htoNat⟩ := block_number hlo hhi ⟨hind.1, hind.2.1⟩
    have hi_addr : f.i_addr 0 = BitVec.ofInt 16 ind := by
      rw [hf]
      exact haddr
    have hilarg : f.ilarg = true := by
      rw [hf]
      exact decide_eq_true hlarge
    have hword : (f.disk (BitVec.ofInt 16 ind)).word k = BitVec.ofInt 16 (bs.getD k 0) := by
      rw [hf]
      dsimp only
      rw [htoNat]
      exact hwords k hk
    have hfetch : f.fetchAddr 0 = (BitVec.ofInt 16 ind, f) := by
      unfold FileDev.fetchAddr
      rw [hi_addr, if_pos hind₀]
    -- one indirect block has all the numbers
    have hhuge : k / 2048 = 0 := Nat.div_eq_of_lt (by omega)
    have hfirst : k / 256 = 0 := Nat.div_eq_of_lt (by omega)
    have hplace : k % 256 = k := Nat.mod_eq_of_lt (by omega)
    unfold FileDev.bmap FileDev.large
    rw [if_pos hilarg, if_neg (not_not.mpr hhuge), hfirst, hplace]
    dsimp only
    rw [hfetch]
    dsimp only
    rw [if_neg hind₀, if_neg (by decide)]
    unfold FileDev.fetchWord
    rw [hword, if_pos hne]

/-- The stored file reads back exactly if it is shorter than 65536 bytes. -/
theorem Stored.reads_iff {st : List ℤ} (h : Stored lo hi s.image st n cs) (hlo : 0 < lo)
    (hhi : hi ≤ 32768) (hn : n ≤ 32736) : ReadsBack s n cs ↔ cs.length < 65536 := by
  -- the size in the inode: the 16 low bits, over eight bits of zero
  have hsize : ∀ free, (s.file n free).i_size.toNat = cs.length % 65536 := by
    intro free
    obtain ⟨d, bs, hheld, hf⟩ := h.file_eq hn free
    rw [hf]
    dsimp only
    rw [hheld.size.1, hheld.size.2, BitVec.toNat_append, BitVec.toNat_ofNat]
    exact Nat.zero_or _
  -- the size that reads back is the one in the inode
  constructor
  · intro hreads
    have := (hreads []).1
    rw [hsize] at this
    omega
  · intro hlt free
    have hlength : (s.file n free).i_size.toNat = cs.length := by
      rw [hsize, Nat.mod_eq_of_lt hlt]
    refine ⟨hlength, fun mem calls hcalls hsum => ?_⟩
    obtain ⟨d, bs, hheld, hf⟩ := h.file_eq hn free
    -- every byte is where `bmap` leads
    have hwhole : (s.file n free).Whole (cs.getD · 0) := by
      intro pos hpos
      rw [hlength] at hpos
      obtain ⟨hdiv, hbyte⟩ := hheld.data pos hpos
      have hmem := hheld.own _ (getD_mem hdiv 0)
      obtain ⟨hne, htoNat⟩ := block_number hlo hhi ⟨hmem.1, hmem.2.1⟩
      refine ⟨_, hne, hheld.bmap hlo hhi free hf hdiv, ?_⟩
      rw [hf]
      dsimp only
      rw [htoNat]
      exact hbyte
    have hzero : (0 : BitVec 32).toNat = 0 := rfl
    -- so the reads deliver the bytes in order
    rw [hwhole.reads mem hcalls (Nat.zero_le _), hlength, hzero, Nat.sub_zero, min_eq_right hsum]
    refine List.ext_getElem (by rw [List.length_map, List.length_range']) fun i hi _ => ?_
    rw [List.length_map, List.length_range'] at hi
    rw [List.getElem_map, List.getElem_range', Nat.zero_add, Nat.one_mul, List.getD_eq_getElem]

/-- In a complete image whose inodes have a place and whose block numbers are no negative `int`, a
file that has been copied reads back if and only if it has less than 65536 bytes. -/
theorem readsBack_iff (E : Env) (fsys proto : List Byte) (fuel : ℕ) {s : St}
    (hrun : run E fsys proto fuel = .ok () s) (hsound : Sound s) {n : ℕ} {cs : List Byte}
    (hcopied : (n, cs) ∈ s.copied) : ReadsBack s n cs ↔ cs.length < 65536 := by
  have hguarded := (guarded_main (E := E) fsys fuel (start proto) ⟨rfl, rfl, rfl⟩).1 () s hrun
  have hkept := hguarded.kept hsound
  obtain ⟨st, -, hstored⟩ := hkept.list
  have hswap := hsound.swap
  have hblocks := hsound.blocks
  have hn : n ≤ 32736 := ((hkept.copied _ hcopied).2.1.trans hsound.inodes).trans (min_le_right _ _)
  exact (hstored _ hcopied).reads_iff (Nat.succ_pos _) (by omega) hn

/-- The proto file describes a root directory with one file. -/
theorem readsBack_iff_hi :
    ∃ s, run { files := fun str => if str = [120] then some [104, 105] else none,
               eof := fun _ => 0, lseek := fun pos _ => pos } []
        [98, 32, 57, 32, 49, 32, 48, 32, 100, 45, 45, 55, 55, 55, 32, 48, 32, 48, 32,
          97, 32, 45, 45, 45, 54, 52, 52, 32, 48, 32, 48, 32, 120, 32, 36, 32] 100 = .ok () s ∧
      (2, [104, 105]) ∈ s.copied ∧ ReadsBack s 2 [104, 105] := by
  have hrun : (run { files := fun str => if str = [120] then some [104, 105] else none,
                     eof := fun _ => 0, lseek := fun pos _ => pos } []
      [98, 32, 57, 32, 49, 32, 48, 32, 100, 45, 45, 55, 55, 55, 32, 48, 32, 48, 32,
        97, 32, 45, 45, 45, 54, 52, 52, 32, 48, 32, 48, 32, 120, 32, 36, 32] 100).okWith
      (fun _ s => (2, [104, 105]) ∈ s.copied ∧ s.ino = 2 ∧ s.s_isize = 1 ∧ s.swap = 0 ∧
        s.s_fsize = 9) = true := by decide +kernel
  obtain ⟨⟨⟩, s, hs, htest⟩ := EStateM.Result.exists_of_okWith hrun
  obtain ⟨hmem, hino, hisize, hswap, hfsize⟩ := of_decide_eq_true htest
  refine ⟨s, hs, hmem, (readsBack_iff _ _ _ _ hs ⟨?_, ?_, ?_⟩ hmem).mpr (by decide)⟩
  · rw [hino, hisize]
    decide
  · rw [hswap]
    decide
  · rw [hfsize, hswap]
    decide

/-! ## A file of 65536 bytes

The pieces of a file can be told beforehand, so that its bytes need not be counted one by one. -/

section

variable (E : Env) (pieces : List Byte → Option (List (List Byte)))

/-- `regular`, for the pieces of the files. -/
def regularOf (fuel n : ℕ) (ip : Inode) : M Unit := do
  getstr E fuel
  let s ← get
  match pieces s.string with
  | none => do
    let ip ← addresses E ip {}
    place E n ip
  | some css => do
    let (ip, b) ← copyBlocks E css ip {}
    let ip ← addresses E ip b
    place E n ip
    modify fun s => { s with copied := (n, css.flatten) :: s.copied }

@[inherit_doc regularOf]
def cfileOf : ℕ → Option Inode → M (Option Inode)
  | 0, _ => throw .fuel
  | fuel + 1, par => do
    let (n, ip) ← header E (fuel + 1)
    let ip := if par.isNone then { ip with i_nlink := 0 } else ip
    if ip.i_mode &&& 0o060000 = 0 then do
      regularOf E pieces (fuel + 1) n ip
      pure par
    else if ip.i_mode &&& 0o060000 = 0o040000 then do
      let ip := if par.isNone then { ip with i_nlink := ip.i_nlink + 1 } else ip
      directory E fuel n (fun ip => (·.getD ip) <$> cfileOf fuel (some ip))
        (par.getD ip).i_number ip
      pure (par.map fun par => { par with i_nlink := par.i_nlink + 1 })
    else do
      special E (fuel + 1) n ip
      pure par

variable {E pieces}

/-- Reading the pieces from a table makes no difference. -/
theorem regularOf_eq (h : ∀ str, pieces str = (E.files str).map (·.toChunks 512)) (fuel n : ℕ)
    (ip : Inode) : regularOf E pieces fuel n ip = regular E fuel n ip := by
  unfold regularOf regular
  refine congrArg _ (funext fun _ => congrArg _ (funext fun s => ?_))
  rw [h s.string]
  cases E.files s.string with
  | none => rfl
  | some cs =>
    have hflatten := (List.chunked_toChunks (n := 512) (by decide) cs).flatten
    dsimp only [Option.map_some]
    rw [hflatten]

/-- Reading the pieces from a table makes no difference. -/
theorem cfileOf_eq (h : ∀ str, pieces str = (E.files str).map (·.toChunks 512)) (fuel : ℕ) :
    cfileOf E pieces fuel = cfile E fuel := by
  induction fuel with
  | zero => rfl
  | succ fuel ih =>
    funext par
    unfold cfileOf cfile cfileWith
    simp only [ih, regularOf_eq h]

end

/-- A proto file for a device of 140 blocks; the root directory has one file. -/
def oneFile : List Byte :=
  [98, 32, 49, 52, 48, 32, 49, 32, 48, 32, 100, 45, 45, 55, 55, 55, 32, 48, 32, 48, 32,
    97, 32, 45, 45, 45, 54, 52, 52, 32, 48, 32, 48, 32, 120, 32, 36, 32]

/-- The file has 65536 bytes. -/
def largeFile : Env where
  files str := if str = [120] then some (List.replicate 65536 104) else none
  eof _ := 0
  lseek pos _ := pos

/-- The inode of the file has the size 0. -/
theorem size_zero : ∃ s n cs, run largeFile [] oneFile 300 = .ok () s ∧ (n, cs) ∈ s.copied ∧
    ¬ReadsBack s n cs := by
  -- the kernel evaluates the pieces of the file instead of its bytes
  have hpieces : ∀ str : List Byte, (if str = [120] then
      some (List.replicate 128 (List.replicate 512 104)) else none) =
      (largeFile.files str).map (·.toChunks 512) := by
    intro str
    have hchunks := (List.chunked_toChunks (n := 512) (by decide)
      (List.replicate (512 * 128) (104 : Byte))).eq_replicate (by decide)
    unfold largeFile
    dsimp only
    split
    · rw [Option.map_some, ← hchunks]
    · rfl
  have hrun : (run largeFile [] oneFile 300).okWith (fun _ s =>
      (s.copied.any fun x => decide (x.1 = 2) && !x.2.isEmpty) &&
        decide ((s.file 2 []).i_size = 0)) = true := by
    unfold run main
    rw [← cfileOf_eq hpieces]
    decide +kernel
  obtain ⟨⟨⟩, s, hs, htest⟩ := EStateM.Result.exists_of_okWith hrun
  obtain ⟨hany, hsize⟩ := (Bool.and_eq_true _ _).mp htest
  obtain ⟨⟨n, cs⟩, hmem, hx⟩ := List.any_eq_true.mp hany
  obtain ⟨hn, hne⟩ := (Bool.and_eq_true _ _).mp hx
  obtain rfl : n = 2 := of_decide_eq_true hn
  refine ⟨s, 2, cs, hs, hmem, fun h => ?_⟩
  -- the size of the inode would be the length of the file
  have hlength := (h []).1
  rw [of_decide_eq_true hsize] at hlength
  rw [List.eq_nil_of_length_eq_zero hlength.symm] at hne
  cases hne

end UnixV6.Mkfs
