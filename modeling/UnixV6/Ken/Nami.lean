import UnixV6.Ken.Exec

/-!
# Searching a directory (`ken/nami.c`)

What `namei` does with one component of a path: gathering it in `u_dbuf`, and the loop over the
entries of the directory. A directory is a file, whose blocks `bmap` finds or allocates. `u_count`
and `u_offset` are words, and `ldiv` divides them as signed ones.
-/

open Function

namespace UnixV6

def ENOENT : ℕ := 2
def ETXTBSY : ℕ := 26
def EROFS : ℕ := 30

/-- `IWRITE` of `i_mode`. -/
def IWRITE : BitVec 16 := 0x0080

/-! ## Entries -/

/-- What an entry has of a name: `DIRSIZ` bytes. -/
abbrev Name : Type := Fin 14 → BitVec 8

/-- An entry of a directory, `u_dent`. -/
structure Dent where
  u_ino : BitVec 16
  u_name : Name
  deriving DecidableEq

namespace Dent

/-- The entry at an offset. -/
def ofBytes (byte : ℕ → BitVec 8) (o : ℕ) : Dent where
  u_ino := byte (o + 1) ++ byte o
  u_name i := byte (o + 2 + i)

/-- The comparison with the component; a free slot is none. -/
def matched (d : Dent) (u_dbuf : Name) : Bool := d.u_ino ≠ 0 ∧ d.u_name = u_dbuf

end Dent

/-- What `namei` has of a component: `u_dbuf`, and the number of bytes that `cp` has passed. -/
structure Gather where
  u_dbuf : Name := fun _ => 0
  cp : ℕ := 0

/-- `if(cp < &u.u_dbuf[DIRSIZ]) *cp++ = c`. -/
def Gather.push (g : Gather) (c : BitVec 8) : Gather :=
  if h : g.cp < 14 then ⟨update g.u_dbuf ⟨g.cp, h⟩ c, g.cp + 1⟩ else g

/-- Gather up the name into `u_dbuf`, padded with zeros. -/
def gather (component : List (BitVec 8)) : Name :=
  let g := component.foldl Gather.push {}
  fun i => if i < g.cp then g.u_dbuf i else 0

/-! ## Permission -/

/-- What `access` looks at. -/
structure Rights where
  s_ronly : Bool
  itext : Bool
  i_mode : BitVec 16
  i_uid : BitVec 8
  i_gid : BitVec 8
  u_uid : BitVec 8
  u_gid : BitVec 8

/-- `access`: the error, or 0. -/
def access (a : Rights) (m : BitVec 16) : ℕ :=
  if m = IWRITE ∧ a.s_ronly then EROFS
  else if m = IWRITE ∧ a.itext then ETXTBSY
  else if a.u_uid = 0 then
    if m = IEXEC ∧ a.i_mode &&& (IEXEC ||| IEXEC >>> 3 ||| IEXEC >>> 6) = 0 then EACCES else 0
  else
    let m := if a.u_uid ≠ a.i_uid then
        if a.u_gid ≠ a.i_gid then m >>> 3 >>> 3 else m >>> 3
      else m
    if a.i_mode &&& m ≠ 0 then 0 else EACCES

/-! ## The loop -/

/-- `bmap` with its check of the block number: the block or 0, and the error or 0. -/
def FileDev.bmapError (s : FileDev) (bn : BitVec 16) : BitVec 16 × ℕ × FileDev :=
  if bn.msb then (0, EFBIG, s)
  else
    let (b, s) := s.bmap bn.toNat
    (b, if b = 0 then ENOSPC else 0, s)

/-- What `namei` has while it searches a directory. -/
structure Search where
  dp : FileDev
  u_count : BitVec 16
  u_offset : BitVec 16 := 0
  u_dent : Dent := ⟨0, fun _ => 0⟩
  /-- The offset after the first free slot, or 0. -/
  eo : BitVec 16 := 0
  /-- The block that was read last. -/
  bp : BitVec 16 := 0
  u_error : ℕ := 0
  /-- The entries that were looked at: their offsets, and the blocks they were taken from. -/
  examined : List (BitVec 16 × BitVec 16) := []

namespace Search

/-- Set up to search a directory. -/
def start (dp : FileDev) : Search := { dp, u_count := (dp.i_size.setWidth 16).sdiv 16 }

/-- On a block boundary, read the next directory block. -/
def fetch (s : Search) : Search :=
  if s.u_offset &&& 0x1ff = 0 then
    let (bp, err, dp) := s.dp.bmapError (s.u_offset.sdiv 512)
    { s with dp, bp, u_error := if err = 0 then s.u_error else err }
  else s

/-- Take the entry at the offset, and note the first empty slot. -/
def take (s : Search) : Search :=
  let u_dent := Dent.ofBytes (s.dp.disk s.bp) (s.u_offset &&& 0x1ff).toNat
  { s with
    u_dent
    u_offset := s.u_offset + 16
    u_count := s.u_count - 1
    eo := if u_dent.u_ino = 0 ∧ s.eo = 0 then s.u_offset + 16 else s.eo
    examined := s.examined ++ [(s.u_offset, s.bp)] }

/-- From `eloop` on: whether a component matched. -/
def eloop (u_dbuf : Name) : ℕ → Search → Option (Bool × Search)
  | 0, _ => none
  | n + 1, s =>
    if s.u_count = 0 then some (false, s)
    else
      let s := s.fetch.take
      if s.u_dent.matched u_dbuf then some (true, s) else eloop u_dbuf n s

end Search

/-- How the search for a component goes out. -/
inductive Leave
  /-- On to the inode of the entry. -/
  | inode
  /-- The directory is returned, with the entry in `u_dent`. -/
  | delete
  /-- `NULL` is returned, and `u_pdir` is the directory; whether `IUPD` is set. -/
  | create (iupd : Bool)
  | out
  deriving DecidableEq, Repr

/-- What is done when the loop is left. `last`: the path ends with the component. -/
def Search.leave (a : Rights) (flag : ℕ) (last found : Bool) (s : Search) : Leave × Search :=
  if found then
    if flag = 2 ∧ last then
      if access a IWRITE ≠ 0 then (.out, { s with u_error := access a IWRITE }) else (.delete, s)
    else (.inode, s)
  else if flag = 1 ∧ last then
    if access a IWRITE ≠ 0 then (.out, { s with u_error := access a IWRITE })
    else if s.eo ≠ 0 then (.create false, { s with u_offset := s.eo - 16 })
    else (.create true, s)
  else (.out, { s with u_error := ENOENT })

/-- The search of a directory for a component. -/
def namei (a : Rights) (flag : ℕ) (last : Bool) (u_dbuf : Name) (dp : FileDev) :
    Option (Leave × Search) :=
  let s := Search.start dp
  (s.eloop u_dbuf (s.u_count.toNat + 1)).map fun r => r.2.leave a flag last r.1

/-! ## Blocks that are there -/

namespace FileDev

variable {s : FileDev}

theorem fetchAddr_eq {i : ℕ} (h : s.i_addr i ≠ 0) : s.fetchAddr i = (s.i_addr i, s) := by
  rw [fetchAddr, if_pos h]

/-- A mapped block of a large file. -/
theorem fetchWord_eq {bp : BitVec 16} {k : ℕ} (h : s.deref bp k ≠ 0) :
    s.fetchWord bp k = (s.deref bp k, s) ∧ bp ≠ 0 := by
  have hbp : bp ≠ 0 := by
    rintro rfl
    exact h rfl
  have hword : s.deref bp k = (s.disk bp).word k := if_neg hbp
  rw [hword] at h ⊢
  exact ⟨by rw [fetchWord, if_pos h], hbp⟩

/-- `bmap` finds the blocks that are there, and allocates none for them. -/
theorem bmap_eq {bn : ℕ} (h : s.node (.data bn) ≠ 0) (hbn : bn < 32768) :
    s.bmap bn = (s.node (.data bn), s) := by
  cases hl : s.ilarg with
  | false =>
    simp only [node, hl, Bool.false_eq_true, if_false] at h ⊢
    -- a small file: the place in the inode
    have h8 : bn < 8 := by
      by_contra hge
      exact h (if_neg hge)
    rw [if_pos h8] at h ⊢
    have hdiv : ¬ bn / 8 ≠ 0 := by omega
    simp only [FileDev.bmap, hl, Bool.false_eq_true, if_false, if_neg hdiv]
    exact fetchAddr_eq h
  | true =>
    simp only [node, hl, if_true] at h ⊢
    simp only [FileDev.bmap, hl, if_true, large]
    -- a large file: one step down, or two
    by_cases h7 : bn / 256 < 7
    · rw [if_pos h7] at h ⊢
      obtain ⟨hword, haddr⟩ := fetchWord_eq h
      have h2048 : ¬ bn / 2048 ≠ 0 := by omega
      simp only [if_neg h2048, fetchAddr_eq haddr, if_neg haddr, if_neg h7.ne, hword]
    · rw [if_neg h7] at h ⊢
      obtain ⟨hword, hind⟩ := fetchWord_eq h
      obtain ⟨hind2, haddr⟩ := fetchWord_eq hind
      have hi : (if bn / 2048 ≠ 0 then 7 else bn / 256) = 7 := by
        split <;> omega
      have hj : bn / 256 % 256 - 7 = bn / 256 - 7 := by omega
      simp only [hi, fetchAddr_eq haddr, if_neg haddr, if_true, hj, hind2, if_neg hind, hword]

/-- The entry with a number. -/
def dent (s : FileDev) (i : ℕ) : Dent := Dent.ofBytes s.byte (16 * i)

/-- The number of entries. -/
def entries (s : FileDev) : ℕ := s.i_size.toNat / 16

/-- The offset of an entry, and its block. -/
def place (s : FileDev) (i : ℕ) : BitVec 16 × BitVec 16 :=
  (BitVec.ofNat 16 (16 * i), s.node (.data (i / 32)))

/-- The offset after the first free slot among the first entries, or 0. -/
def afterFree (s : FileDev) (n : ℕ) : ℕ :=
  ((List.range n).find? fun i => (s.dent i).u_ino = 0).elim 0 fun i => 16 * i + 16

/-- Entries are not split over blocks. -/
theorem dent_eq {i : ℕ} (h : s.node (.data (i / 32)) ≠ 0) :
    Dent.ofBytes (s.disk (s.node (.data (i / 32)))) (16 * i % 512) = s.dent i := by
  have hbyte : ∀ k, k < 16 →
      s.byte (16 * i + k) = s.disk (s.node (.data (i / 32))) (16 * i % 512 + k) := by
    intro k hk
    have hdiv : (16 * i + k) / 512 = i / 32 := by omega
    have hmod : (16 * i + k) % 512 = 16 * i % 512 + k := by omega
    rw [byte, hdiv, if_neg h, hmod]
  have h0 := hbyte 0 (by omega)
  rw [add_zero, add_zero] at h0
  simp only [dent, Dent.ofBytes, h0, hbyte 1 (by omega), Dent.mk.injEq, true_and]
  funext j
  rw [add_assoc, add_assoc, hbyte (2 + j) (by omega)]

/-- A directory whose size fits `i_size1`, with the blocks below its size. -/
structure IsDir (s : FileDev) : Prop where
  i_size0 : s.i_size.toNat < 65536
  dvd : 16 ∣ s.i_size.toNat
  allocated : ∀ i, i < s.entries → s.node (.data (i / 32)) ≠ 0

theorem IsDir.i_size (h : s.IsDir) : s.i_size.toNat = 16 * s.entries := by
  rw [entries, Nat.mul_div_cancel' h.dvd]

end FileDev

/-! ## Words of the loop -/

/-- The offset in the block. -/
theorem and_511 {k : ℕ} (hk : k < 65536) : (BitVec.ofNat 16 k &&& 0x1ff).toNat = k % 512 := by
  rw [BitVec.toNat_and, BitVec.toNat_ofNat, Nat.mod_eq_of_lt hk]
  exact Nat.and_two_pow_sub_one_eq_mod k 9

/-- Signed division agrees with the natural one below 32768. -/
theorem sdiv_of_lt {k m : ℕ} (hk : k < 32768) (hm : m < 32768) :
    (BitVec.ofNat 16 k).sdiv (BitVec.ofNat 16 m) = BitVec.ofNat 16 (k / m) := by
  have hmsb : ∀ j, j < 32768 → (BitVec.ofNat 16 j).msb = false := by
    intro j hj
    rw [BitVec.msb_eq_decide, BitVec.toNat_ofNat]
    simp only [decide_eq_false_iff_not, not_le]
    omega
  rw [BitVec.sdiv_eq, hmsb k hk, hmsb m hm]
  apply BitVec.eq_of_toNat_eq
  have hle : k / m ≤ k := Nat.div_le_self k m
  simp only [BitVec.udiv_eq, BitVec.toNat_udiv, BitVec.toNat_ofNat]
  rw [Nat.mod_eq_of_lt (by omega), Nat.mod_eq_of_lt (by omega), Nat.mod_eq_of_lt (by omega)]

namespace Search

variable {dp : FileDev} {u_dbuf : Name} {s : Search} {i : ℕ}

/-- The division of a size from 32768 on is one of a negative number. -/
theorem start_u_count (h : dp.IsDir) : (start dp).u_count.toNat =
    if dp.entries < 2048 then dp.entries else dp.entries + 61440 := by
  have hsize := h.i_size
  have hlt := h.i_size0
  have hword : dp.i_size.setWidth 16 = BitVec.ofNat 16 (16 * dp.entries) := by
    apply BitVec.eq_of_toNat_eq
    rw [BitVec.toNat_setWidth, BitVec.toNat_ofNat, hsize]
  simp only [start, hword]
  split
  · next hn =>
    rw [show (16 : BitVec 16) = BitVec.ofNat 16 16 from rfl, sdiv_of_lt (by omega) (by omega),
      Nat.mul_div_cancel_left _ (by omega), BitVec.toNat_ofNat, Nat.mod_eq_of_lt (by omega)]
  · next hn =>
    -- the quotient of the negative number is negative
    have hmsb : (BitVec.ofNat 16 (16 * dp.entries)).msb = true := by
      rw [BitVec.msb_eq_decide, BitVec.toNat_ofNat]
      simp only [decide_eq_true_eq]
      omega
    have hmsb' : (16 : BitVec 16).msb = false := rfl
    have hneg : (-BitVec.ofNat 16 (16 * dp.entries)).toNat = 65536 - 16 * dp.entries := by
      rw [BitVec.toNat_neg, BitVec.toNat_ofNat]
      omega
    have hdiv : ((-BitVec.ofNat 16 (16 * dp.entries)) / 16).toNat = 4096 - dp.entries := by
      rw [BitVec.toNat_udiv, hneg]
      show (65536 - 16 * dp.entries) / 16 = _
      omega
    rw [BitVec.sdiv_eq, hmsb, hmsb']
    show (-((-BitVec.ofNat 16 (16 * dp.entries)) / 16)).toNat = _
    rw [BitVec.toNat_neg, hdiv]
    omega

/-- The entries below `i` have been looked at, and none has matched. -/
structure At (dp : FileDev) (i : ℕ) (s : Search) : Prop where
  file : s.dp = dp
  u_offset : s.u_offset = BitVec.ofNat 16 (16 * i)
  u_count : s.u_count = (start dp).u_count - BitVec.ofNat 16 i
  bp : i % 32 ≠ 0 → s.bp = dp.node (.data (i / 32))
  u_error : s.u_error = 0
  eo : s.eo = BitVec.ofNat 16 (dp.afterFree i)
  examined : s.examined = (List.range i).map dp.place

theorem at_start (dp : FileDev) : At dp 0 (start dp) :=
  ⟨rfl, rfl, (BitVec.sub_zero _).symm, fun h => absurd rfl h, rfl, rfl, rfl⟩

/-- The block of an entry is read. -/
theorem At.fetch (h : At dp i s) (hi : i < 2048) (hblock : dp.node (.data (i / 32)) ≠ 0) :
    s.fetch = { s with bp := dp.node (.data (i / 32)) } := by
  have hand := and_511 (k := 16 * i) (by omega)
  unfold Search.fetch
  rw [h.u_offset]
  split
  · next h0 =>
    rw [h0] at hand
    -- at the beginning of a block it is looked up
    have hbn : (BitVec.ofNat 16 (16 * i)).sdiv 512 = BitVec.ofNat 16 (i / 32) := by
      have hdiv : 16 * i / 512 = i / 32 := by omega
      rw [show (512 : BitVec 16) = BitVec.ofNat 16 512 from rfl, sdiv_of_lt (by omega) (by omega),
        hdiv]
    have hmsb : (BitVec.ofNat 16 (i / 32)).msb = false := by
      rw [BitVec.msb_eq_decide, BitVec.toNat_ofNat]
      simp only [decide_eq_false_iff_not, not_le]
      omega
    have hnat : (BitVec.ofNat 16 (i / 32)).toNat = i / 32 := by
      rw [BitVec.toNat_ofNat]
      omega
    simp only [hbn, FileDev.bmapError, hmsb, Bool.false_eq_true, if_false, hnat, h.file,
      FileDev.bmap_eq hblock (by omega), if_neg hblock, if_true]
  · next hne =>
    -- within a block the buffer is still there
    have hmod : i % 32 ≠ 0 := by
      intro h0
      have hz : 16 * i % 512 = 0 := by omega
      exact hne (BitVec.eq_of_toNat_eq (hand.trans hz))
    rw [← h.bp hmod, ← h.u_offset]

/-- One more entry looked at: the first free one is remembered. -/
theorem afterFree_succ (dp : FileDev) (i : ℕ) : dp.afterFree (i + 1) =
    if (dp.dent i).u_ino = 0 ∧ dp.afterFree i = 0 then 16 * i + 16 else dp.afterFree i := by
  unfold FileDev.afterFree
  rw [List.range_succ, List.find?_append]
  cases hfind : (List.range i).find? fun j => (dp.dent j).u_ino = 0 with
  | none =>
    simp only [Option.none_or, List.find?_singleton, Option.elim_none, and_true, decide_eq_true_eq]
    split <;> rfl
  | some j =>
    have hne : ¬ ((dp.dent i).u_ino = 0 ∧ 16 * j + 16 = 0) := fun hz => by omega
    exact (if_neg hne).symm

theorem afterFree_le (dp : FileDev) (i : ℕ) : dp.afterFree i ≤ 16 * i := by
  induction i with
  | zero => exact le_rfl
  | succ i ih =>
    rw [afterFree_succ]
    split <;> omega

/-- A turn looks at one entry. -/
theorem At.turn (h : At dp i s) (hi : i < 2048) (hblock : dp.node (.data (i / 32)) ≠ 0) :
    At dp (i + 1) s.fetch.take ∧ s.fetch.take.u_dent = dp.dent i := by
  have hand := and_511 (k := 16 * i) (by omega)
  have hdent : Dent.ofBytes (s.dp.disk (dp.node (.data (i / 32)))) (s.u_offset &&& 0x1ff).toNat =
      dp.dent i := by
    rw [h.file, h.u_offset, hand, FileDev.dent_eq hblock]
  rw [h.fetch hi hblock]
  simp only [Search.take, hdent, and_true]
  have hoff : s.u_offset + 16 = BitVec.ofNat 16 (16 * (i + 1)) := by
    rw [h.u_offset, mul_add, mul_one, BitVec.ofNat_add]
    rfl
  refine ⟨h.file, hoff, ?_, fun hmod => ?_, h.u_error, ?_, ?_⟩
  · show s.u_count - 1 = _
    rw [h.u_count, BitVec.ofNat_add, BitVec.sub_sub]
    rfl
  · show dp.node (.data (i / 32)) = dp.node (.data ((i + 1) / 32))
    congr 2
    omega
  · show (if (dp.dent i).u_ino = 0 ∧ s.eo = 0 then s.u_offset + 16 else s.eo) = _
    have hle := afterFree_le dp i
    -- `eo` is zero as long as no free entry has been met
    have heo : s.eo = 0 ↔ dp.afterFree i = 0 := by
      rw [h.eo]
      constructor
      · intro h0
        have hnat := congrArg BitVec.toNat h0
        rw [BitVec.toNat_ofNat, Nat.mod_eq_of_lt (by omega)] at hnat
        exact hnat
      · intro h0
        rw [h0]
        rfl
    rw [afterFree_succ, hoff, h.eo]
    simp only [← heo, h.eo]
    split <;> rfl
  · show s.examined ++ [(s.u_offset, dp.node (.data (i / 32)))] = _
    rw [h.examined, h.u_offset, List.range_succ, List.map_append]
    rfl

/-- There are entries left. -/
theorem At.u_count_ne (h : At dp i s) (hdir : dp.IsDir) (hi : i < 2048) (hlt : i < dp.entries) :
    s.u_count ≠ 0 := by
  have hstart := start_u_count hdir
  have hsize := hdir.i_size
  have hle := hdir.i_size0
  intro h0
  rw [h.u_count] at h0
  have hnat := congrArg BitVec.toNat h0
  rw [BitVec.toNat_sub, hstart, BitVec.toNat_ofNat] at hnat
  change _ = 0 at hnat
  split at hnat <;> omega

/-- A run over entries that do not match. -/
theorem At.walk (h : At dp i s) (hdir : dp.IsDir) (u_dbuf : Name) {k : ℕ} (hk : i + k ≤ 2048)
    (hle : i + k ≤ dp.entries)
    (hno : ∀ j, i ≤ j → j < i + k → (dp.dent j).matched u_dbuf = false) :
    ∃ s', At dp (i + k) s' ∧ ∀ f, eloop u_dbuf (f + k) s = eloop u_dbuf f s' := by
  induction k generalizing i s with
  | zero => exact ⟨s, h, fun f => rfl⟩
  | succ k ih =>
    obtain ⟨hat, hdent⟩ := h.turn (by omega) (hdir.allocated i (by omega))
    obtain ⟨s', hat', hrun⟩ := ih hat (by omega) (by omega) fun j hj hlt =>
      hno j (by omega) (by omega)
    refine ⟨s', (show i + (k + 1) = i + 1 + k by omega) ▸ hat', fun f => ?_⟩
    rw [← hrun f, ← add_assoc]
    show (if s.u_count = 0 then _ else _) = _
    rw [if_neg (h.u_count_ne hdir (by omega) (by omega))]
    show (if s.fetch.take.u_dent.matched u_dbuf then _ else _) = _
    rw [hdent, hno i le_rfl (by omega)]
    rfl

/-- The entries that were looked at stay in the record. -/
theorem examined_kept {n : ℕ} {r : Bool × Search} (h : eloop u_dbuf n s = some r) :
    s.examined <+: r.2.examined := by
  induction n generalizing s with
  | zero => cases h
  | succ n ih =>
    have htake : s.examined <+: s.fetch.take.examined := by
      have hfetch : s.fetch.examined = s.examined := by
        unfold Search.fetch
        split <;> rfl
      show s.examined <+: s.fetch.examined ++ _
      rw [hfetch]
      exact List.prefix_append _ _
    simp only [eloop] at h
    split at h
    · cases h
      exact List.prefix_rfl
    · split at h
      · cases h
        exact htake
      · exact htake.trans (ih h)

end Search

end UnixV6
