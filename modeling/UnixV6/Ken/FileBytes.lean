import UnixV6.Ken.Bmap

/-!
# A file as an array of bytes (`readi` and `writei` of `ken/rdwri.c` over `bmap`)

The loops of `readi` and `writei` on one regular file, call after call. The kernel's side of a transfer
is the block that `bmap` comes back with; the user's side is `mem`. `getblk`, for a block that is
written whole, is `bread` here: nothing of what was in the buffer is left.
-/

open Function

namespace UnixV6

/-- The memory of a process. -/
abbrev Mem : Type := BitVec 16 → BitVec 8

/-- What `iomove` leaves in the buffer on `B_WRITE`. -/
def Move.store (mv : Move) (mem : Mem) (b : Block) : Block :=
  mv.touched.foldl (fun b x => update b x.1.toNat (mem x.2)) b

/-- What `iomove` leaves in the memory on `B_READ`. -/
def Move.load (mv : Move) (b : Block) (mem : Mem) : Mem :=
  mv.touched.foldl (fun mem x => update mem x.2 (b x.1.toNat)) mem

namespace FileDev

/-- `bmap` of the block that the offset is in. -/
def env (s : FileDev) (u : IoArgs) : Env × FileDev :=
  if u.lbn.msb then (⟨0, EFBIG, fun _ => false⟩, s)
  else
    let (bn, s) := s.bmap u.lbn.toNat
    (⟨bn, if bn = 0 then ENOSPC else 0, fun _ => false⟩, s)

/-- A turn of the loop of `writei`. -/
def writeTurn (s : FileDev) (mem : Mem) (u : IoArgs) : (Option Move × IoArgs) × FileDev :=
  let (e, s) := s.env u
  let r := u.writei .file e
  match r.1 with
  | none => (r, s)
  | some mv => (r, s.putData e.bn (mv.store mem (s.disk e.bn)) (r.2.grow .file s.i_size))

/-- A turn of the loop of `readi`. -/
def readTurn (s : FileDev) (mem : Mem) (u : IoArgs) : (Option Move × IoArgs) × FileDev × Mem :=
  -- At the end of the file there is no call of `bmap`.
  if (dpcmp (s.i_size.setWidth 32) u.u_offset).sle 0 then ((none, u), s, mem)
  else
    let (e, s) := s.env u
    let r := u.readi .file s.i_size e
    match r.1 with
    | none => (r, s, mem)
    | some mv => (r, s, mv.load (s.disk e.bn) mem)

/-- The loop of `writei`, for at most so many turns. -/
def writeLoop (mem : Mem) : ℕ → FileDev → IoArgs → FileDev × IoArgs
  | 0, s, u => (s, u)
  | n + 1, s, u =>
    let t := s.writeTurn mem u
    if XferSys.again t.1 then writeLoop mem n t.2 t.1.2 else (t.2, t.1.2)

/-- The loop of `readi`, for at most so many turns. -/
def readLoop : ℕ → FileDev → Mem → IoArgs → FileDev × Mem × IoArgs
  | 0, s, mem, u => (s, mem, u)
  | n + 1, s, mem, u =>
    let t := s.readTurn mem u
    if XferSys.again t.1 then readLoop n t.2.1 t.2.2 t.1.2 else (t.2.1, t.2.2, t.1.2)

/-- `writei`. A turn that is followed by another moves something, so there are no more turns than
bytes. -/
def writei (s : FileDev) (mem : Mem) (u : IoArgs) : FileDev × IoArgs :=
  if u.u_count = 0 then (s, u) else writeLoop mem u.u_count.toNat s u

/-- `readi`. -/
def readi (s : FileDev) (mem : Mem) (u : IoArgs) : FileDev × Mem × IoArgs :=
  if u.u_count = 0 then (s, mem, u) else readLoop u.u_count.toNat s mem u

end FileDev

/-! ## `iomove`, byte by byte -/

namespace IoArgs

/-- The arguments after `n` bytes. -/
def advance (u : IoArgs) (n : ℕ) : IoArgs :=
  { u with
    u_count := u.u_count - BitVec.ofNat 16 n
    u_offset := u.u_offset + BitVec.ofNat 32 n
    u_base := u.u_base + BitVec.ofNat 16 n }

theorem advance_zero (u : IoArgs) : u.advance 0 = u := by
  simp [advance]

/-- Bytes pass one after another. -/
theorem advance_advance (u : IoArgs) (n m : ℕ) : (u.advance n).advance m = u.advance (n + m) := by
  simp only [advance, IoArgs.mk.injEq, BitVec.ofNat_add]
  refine ⟨?_, ?_, ?_, trivial⟩ <;> bv_omega

theorem pass_eq (u : IoArgs) : u.pass = u.advance 1 := rfl

/-- The bytes side by side from `cp` and from `base` on. -/
def pairs (cp : ℤ) (base : BitVec 16) (n : ℕ) : List (ℤ × BitVec 16) :=
  (List.range n).map fun i : ℕ => (cp + i, base + BitVec.ofNat 16 i)

/-- The first byte of a transfer. -/
theorem pairs_succ (cp : ℤ) (base : BitVec 16) (n : ℕ) :
    pairs cp base (n + 1) = (cp, base) :: pairs (cp + 1) (base + 1) n := by
  unfold pairs
  rw [List.range_succ_eq_map, List.map_cons, List.map_map]
  congr 1
  · simp
  · refine List.map_congr_left fun i _ => Prod.ext ?_ ?_
    · simp only [comp_apply, Nat.succ_eq_add_one]
      push_cast
      ring
    · simp only [comp_apply, Nat.succ_eq_add_one]
      bv_omega

/-- Without faults, and with no more bytes than the count says, all of them are moved. -/
theorem iomoveLoop_eq (write : Bool) {n : ℕ} (cp : ℤ) {u : IoArgs} (hn : n ≤ u.u_count.toNat) :
    iomoveLoop write (fun _ => false) n cp u = (pairs cp u.u_base n, u.advance n) := by
  induction n generalizing cp u with
  | zero => simp [iomoveLoop, advance_zero, pairs]
  | succ n ih =>
    have h0 : u.u_count ≠ 0 := by
      intro h0
      rw [h0] at hn
      exact absurd hn (Nat.not_succ_le_zero n)
    have hpass : n ≤ u.pass.u_count.toNat := by
      simp only [IoArgs.pass]
      bv_omega
    have hadvance : u.pass.advance n = u.advance (n + 1) := by
      rw [pass_eq, advance_advance, Nat.add_comm]
    unfold iomoveLoop
    rw [ih (cp + 1) hpass, hadvance, pairs_succ]
    simp only [if_neg h0, Bool.false_eq_true, if_false]
    split
    · rfl
    · split
      · next hlast =>
        -- The count has run out, so this was the last byte.
        obtain rfl : n = 0 := by
          rw [hlast] at hpass
          exact Nat.le_zero.mp hpass
        rw [← hadvance, advance_zero]
        rfl
      · rfl

/-- The last byte of a transfer. -/
theorem pairs_append (cp : ℤ) (base : BitVec 16) (n : ℕ) :
    pairs cp base (n + 1) = pairs cp base n ++ [(cp + (n : ℤ), base + BitVec.ofNat 16 n)] := by
  rw [pairs, List.range_succ, List.map_append, List.map_singleton, pairs]

/-- A transfer into a block changes the bytes that it reaches. -/
theorem store_pairs (mem : Mem) (b : Block) (o n : ℕ) (base : BitVec 16) (k : ℕ) :
    (pairs o base n).foldl (fun b x => update b x.1.toNat (mem x.2)) b k =
      if o ≤ k ∧ k < o + n then mem (base + BitVec.ofNat 16 (k - o)) else b k := by
  induction n with
  | zero => rw [if_neg (by omega)]; rfl
  | succ n ih =>
    rw [pairs_append, List.foldl_append, List.foldl_cons, List.foldl_nil]
    have hidx : ((o : ℤ) + (n : ℤ)).toNat = o + n := by omega
    simp only [hidx]
    rcases eq_or_ne k (o + n) with rfl | hk
    · rw [update_self, if_pos (by omega), Nat.add_sub_cancel_left]
    · rw [update_of_ne hk, ih]
      have hiff : (o ≤ k ∧ k < o + n) ↔ (o ≤ k ∧ k < o + (n + 1)) := by omega
      simp only [hiff]

/-- A transfer from a block changes the bytes that it reaches. -/
theorem load_pairs (mem : Mem) (b : Block) (o : ℕ) {n : ℕ} (hn : n ≤ 65536) (base a : BitVec 16) :
    (pairs o base n).foldl (fun mem x => update mem x.2 (b x.1.toNat)) mem a =
      if (a - base).toNat < n then b (o + (a - base).toNat) else mem a := by
  induction n with
  | zero => rfl
  | succ n ih =>
    rw [pairs_append, List.foldl_append, List.foldl_cons, List.foldl_nil]
    have hidx : ((o : ℤ) + (n : ℤ)).toNat = o + n := by omega
    simp only [hidx]
    rcases eq_or_ne a (base + BitVec.ofNat 16 n) with rfl | ha
    · have hsub : (base + BitVec.ofNat 16 n - base).toNat = n := by bv_omega
      rw [update_self, hsub, if_pos (Nat.lt_succ_self n)]
    · rw [update_of_ne ha, ih (by omega)]
      have hne : (a - base).toNat ≠ n := by
        intro heq
        exact ha (by bv_omega)
      have hiff : (a - base).toNat < n ↔ (a - base).toNat < n + 1 := by omega
      simp only [hiff]

/-! ## Arithmetic inside the file space -/

variable {u : IoArgs}

/-- A transfer ends at the end of the block or of the count. -/
theorem chunk_toNat (hcount : 0 < u.u_count.toInt) :
    u.chunk.toNat = min (512 - u.u_offset.toNat % 512) u.u_count.toNat := by
  have hchunk := chunk_toInt u
  have hpos := chunk_pos hcount
  have hnat := toNat_of_toInt_nonneg hpos.le
  have hcnt := toNat_of_toInt_nonneg hcount.le
  rw [o_toNat] at hchunk
  omega

/-- The block of an offset, below 2^24. -/
theorem lbn_toNat (hoff : u.u_offset.toNat < 2 ^ 24) :
    u.lbn.toNat = u.u_offset.toNat / 512 ∧ u.lbn.msb = false := by
  have hmsb : u.u_offset.msb = false := by
    rw [BitVec.msb_eq_decide]
    simp only [Nat.add_one_sub_one, decide_eq_false_iff_not, not_le]
    omega
  have hlbn : u.lbn.toNat = u.u_offset.toNat / 512 := by
    unfold lbn
    rw [BitVec.toNat_setWidth, BitVec.toNat_sshiftRight_of_msb_false hmsb, Nat.shiftRight_eq_div_pow]
    omega
  refine ⟨hlbn, ?_⟩
  rw [BitVec.msb_eq_decide, hlbn]
  simp only [Nat.add_one_sub_one, decide_eq_false_iff_not, not_le]
  omega

/-- An offset below 2^31 is not negative. -/
theorem offset_toInt (hoff : u.u_offset.toNat < 2 ^ 31) : u.u_offset.toInt = u.u_offset.toNat := by
  rw [BitVec.toInt_eq_toNat_cond]
  omega

/-- How far the end of the file is. -/
theorem dpcmp_size (i_size : BitVec 24) (hoff : u.u_offset.toNat < 2 ^ 31) :
    (dpcmp (i_size.setWidth 32) u.u_offset).toInt =
      max (-512) (min 512 ((i_size.toNat : ℤ) - u.u_offset.toNat)) := by
  have hsize := i_size.isLt
  rw [dpcmp_toInt, BitVec.toInt_sub, size_toInt, offset_toInt hoff, Int.bmod_def]
  omega

/-- A file grows to the end of what was written. -/
theorem grow_toNat (i_size : BitVec 24) (hoff : u.u_offset.toNat < 2 ^ 24) :
    (u.grow .file i_size).toNat = max i_size.toNat u.u_offset.toNat := by
  have hcmp := dpcmp_size i_size (u := u) (by omega)
  have hslt := BitVec.slt_iff_toInt_lt (x := dpcmp (i_size.setWidth 32) u.u_offset) (y := 0)
  have hzero : (0 : BitVec 16).toInt = 0 := rfl
  unfold grow
  split
  · next hlt =>
    have hlt := hslt.mp hlt.2
    rw [BitVec.toNat_setWidth]
    omega
  · next hge =>
    have hge : ¬ (dpcmp (i_size.setWidth 32) u.u_offset).toInt < (0 : BitVec 16).toInt :=
      fun hlt => hge ⟨by decide, hslt.mpr hlt⟩
    omega

/-- The offset grows by what has passed. -/
theorem advance_offset {n : ℕ} (h : u.u_offset.toNat + n < 2 ^ 32) :
    (u.advance n).u_offset.toNat = u.u_offset.toNat + n := by
  simp only [advance]
  rw [BitVec.toNat_add, BitVec.toNat_ofNat]
  omega

/-- The count shrinks by what has passed. -/
theorem advance_count {n : ℕ} (h : n ≤ u.u_count.toNat) :
    (u.advance n).u_count.toNat = u.u_count.toNat - n := by
  have hlt := u.u_count.isLt
  simp only [advance]
  bv_omega

end IoArgs

/-! ## Turns -/

namespace FileDev

variable {s s' : FileDev} {u : IoArgs}

/-- `bmap` finds or makes the block of the offset. -/
theorem Inv.env (h : s.Inv) (hfree : 4 ≤ s.free.length) (hoff : u.u_offset.toNat < 2 ^ 24) :
    ∃ bn s', s.env u = (⟨bn, 0, fun _ => false⟩, s') ∧
      Mapped s (u.u_offset.toNat / 512) 4 (bn, s') := by
  obtain ⟨hlbn, hmsb⟩ := IoArgs.lbn_toNat hoff
  have hmapped : Mapped s (u.u_offset.toNat / 512) 4 (s.bmap (u.u_offset.toNat / 512)) :=
    h.bmap_mapped hfree (by omega)
  unfold FileDev.env
  rw [if_neg (by simp [hmsb]), hlbn]
  generalize s.bmap (u.u_offset.toNat / 512) = x at hmapped ⊢
  obtain ⟨bn, s'⟩ := x
  exact ⟨bn, s', by simp only [if_neg hmapped.ne], hmapped⟩

/-- The bytes of a file after `n` bytes of the memory have been written at an offset. -/
def overwritten (byte : ℕ → BitVec 8) (off n : ℕ) (mem : Mem) (base : BitVec 16) : ℕ → BitVec 8 :=
  fun pos => if off ≤ pos ∧ pos < off + n then mem (base + BitVec.ofNat 16 (pos - off)) else byte pos

/-- The memory after `n` bytes of the file from an offset on have been read. -/
def delivered (mem : Mem) (base : BitVec 16) (byte : ℕ → BitVec 8) (off n : ℕ) : Mem :=
  fun a => if (a - base).toNat < n then byte (off + (a - base).toNat) else mem a

/-- The bytes that a turn moves: what is left of the block, or of the count. -/
def turn (u : IoArgs) : ℕ := min (512 - u.u_offset.toNat % 512) u.u_count.toNat

/-- A turn of `writei`, when `bmap` has a block for it. -/
theorem Mapped.writeTurn {bn : BitVec 16} {s₁ : FileDev}
    (hmapped : Mapped s (u.u_offset.toNat / 512) 4 (bn, s₁))
    (henv : s.env u = (⟨bn, 0, fun _ => false⟩, s₁)) (mem : Mem) (hcount : 0 < u.u_count.toInt)
    (hend : u.u_offset.toNat + u.u_count.toNat < 2 ^ 24) :
    ∃ mv s', s.writeTurn mem u = ((some mv, u.advance (turn u)), s') ∧ s'.Inv ∧
      s'.i_size.toNat = max s.i_size.toNat (u.u_offset.toNat + turn u) ∧
      s'.byte = overwritten s.byte u.u_offset.toNat (turn u) mem u.u_base ∧
      s.free.length ≤ s'.free.length + 4 ∧ s'.node = s₁.node := by
  have hlbn := IoArgs.lbn_toNat (u := u) (by omega)
  have hchunk : u.chunk.toNat = turn u := IoArgs.chunk_toNat hcount
  have hturn : turn u ≤ u.u_count.toNat := min_le_right _ _
  have hblock : turn u ≤ 512 - u.u_offset.toNat % 512 := min_le_left _ _
  -- all of the turn lies within the block
  have hmove : u.iomove true (fun _ => false) u.o u.chunk =
      (⟨u.o, u.chunk, IoArgs.pairs (u.u_offset.toNat % 512 : ℕ) u.u_base (turn u)⟩,
        u.advance (turn u)) := by
    unfold IoArgs.iomove
    rw [hchunk, IoArgs.iomoveLoop_eq true _ hturn, IoArgs.o_toInt, IoArgs.o_toNat]
  have hne : bn ≠ 0 := hmapped.ne
  have hwrite : u.writei .file ⟨bn, 0, fun _ => false⟩ =
      (some (u.iomove true (fun _ => false) u.o u.chunk).1, u.advance (turn u)) := by
    simp only [IoArgs.writei, IoArgs.bmap, hlbn.2, IoArgs.setError, reduceCtorEq, if_false, if_true,
      Bool.false_eq_true, if_neg hne, hmove]
  have hdata : s₁.node (.data (u.u_offset.toNat / 512)) = bn := hmapped.node
  unfold FileDev.writeTurn
  simp only [henv, hwrite]
  refine ⟨_, _, rfl, ?_, ?_, ?_, ?_, ?_⟩
  · rw [← hdata]
    exact hmapped.inv.putData _ _
  · have hoff := IoArgs.advance_offset (u := u) (n := turn u) (by omega)
    have hgrow := IoArgs.grow_toNat s₁.i_size (u := u.advance (turn u)) (by omega)
    exact hgrow.trans (by rw [hoff, hmapped.i_size])
  · funext pos
    rw [← hdata, hmapped.inv.byte_putData (hdata ▸ hne), hdata, hmove]
    unfold overwritten Move.store
    rw [IoArgs.store_pairs, hmapped.byte]
    split
    · next hsame =>
      -- offsets in the block are offsets in the file
      have hiff : (u.u_offset.toNat % 512 ≤ pos % 512 ∧
          pos % 512 < u.u_offset.toNat % 512 + turn u) ↔
          (u.u_offset.toNat ≤ pos ∧ pos < u.u_offset.toNat + turn u) := by omega
      have hsub : pos % 512 - u.u_offset.toNat % 512 = pos - u.u_offset.toNat := by omega
      have hbyte : s₁.disk bn (pos % 512) = s.byte pos := by
        rw [← hmapped.byte, FileDev.byte, hsame, hdata, if_neg hne]
      simp only [hiff, hsub, hbyte]
    · next hdiff => rw [if_neg (by omega)]
  · exact hmapped.free
  · rw [← hdata]
    exact hmapped.inv.node_putData _ _

/-- A turn of `writei` stores the bytes of one block. -/
theorem Inv.writeTurn (h : s.Inv) (mem : Mem) (hfree : 4 ≤ s.free.length)
    (hcount : 0 < u.u_count.toInt) (hend : u.u_offset.toNat + u.u_count.toNat < 2 ^ 24) :
    ∃ mv s', s.writeTurn mem u = ((some mv, u.advance (turn u)), s') ∧ s'.Inv ∧
      s'.i_size.toNat = max s.i_size.toNat (u.u_offset.toNat + turn u) ∧
      s'.byte = overwritten s.byte u.u_offset.toNat (turn u) mem u.u_base ∧
      s.free.length ≤ s'.free.length + 4 := by
  obtain ⟨bn, s₁, henv, hmapped⟩ := h.env hfree (u := u) (by omega)
  obtain ⟨mv, s', heq, hinv, hsize, hbyte, hfree', -⟩ := hmapped.writeTurn henv mem hcount hend
  exact ⟨mv, s', heq, hinv, hsize, hbyte, hfree'⟩

/-- The bytes that a turn of `readi` moves. -/
def readable (s : FileDev) (u : IoArgs) : ℕ := min (turn u) (s.i_size.toNat - u.u_offset.toNat)

/-- A turn of `readi` that gets a block from `bmap`. -/
theorem readTurn_of_env {bn : BitVec 16} {s₁ : FileDev} {byte : ℕ → BitVec 8}
    (henv : s.env u = (⟨bn, 0, fun _ => false⟩, s₁)) (hne : bn ≠ 0) (hi_size : s₁.i_size = s.i_size)
    (hbyte : ∀ i < s.readable u,
      s₁.disk bn (u.u_offset.toNat % 512 + i) = byte (u.u_offset.toNat + i))
    (mem : Mem) (hcount : 0 < u.u_count.toInt) (hoff : u.u_offset.toNat < s.i_size.toNat) :
    ∃ mv, s.readTurn mem u = ((some mv, u.advance (s.readable u)), s₁,
      delivered mem u.u_base byte u.u_offset.toNat (s.readable u)) := by
  have hsize := s.i_size.isLt
  have hlbn := IoArgs.lbn_toNat (u := u) (by omega)
  have hcmp := IoArgs.dpcmp_size s.i_size (u := u) (by omega)
  have hchunk : u.chunk.toNat = turn u := IoArgs.chunk_toNat hcount
  have hturn : turn u ≤ u.u_count.toNat := min_le_right _ _
  have hblock : turn u ≤ 512 - u.u_offset.toNat % 512 := min_le_left _ _
  have hreadable : s.readable u ≤ turn u := min_le_left _ _
  have hstop : ¬ (dpcmp (s.i_size.setWidth 32) u.u_offset).sle 0 := by
    intro hsle
    have hle : (dpcmp (s.i_size.setWidth 32) u.u_offset).toInt ≤ 0 := BitVec.sle_iff_toInt_le.mp hsle
    omega
  -- The chunk is cut at the end of the file.
  have hmin : (smin u.chunk (dpcmp (s.i_size.setWidth 32) u.u_offset)).toNat = s.readable u := by
    have hval := smin_toInt u.chunk (dpcmp (s.i_size.setWidth 32) u.u_offset)
    have hpos := IoArgs.chunk_pos hcount
    have hnat := toNat_of_toInt_nonneg hpos.le
    have hnat' := toNat_of_toInt_nonneg (x := smin u.chunk (dpcmp (s.i_size.setWidth 32) u.u_offset))
      (by omega)
    unfold readable
    omega
  have hmove : u.iomove false (fun _ => false) u.o
      (smin u.chunk (dpcmp (s.i_size.setWidth 32) u.u_offset)) =
      (⟨u.o, smin u.chunk (dpcmp (s.i_size.setWidth 32) u.u_offset),
        IoArgs.pairs (u.u_offset.toNat % 512 : ℕ) u.u_base (s.readable u)⟩,
        u.advance (s.readable u)) := by
    unfold IoArgs.iomove
    rw [hmin, IoArgs.iomoveLoop_eq false _ (hreadable.trans hturn), IoArgs.o_toInt, IoArgs.o_toNat]
  have hread : u.readi .file s₁.i_size ⟨bn, 0, fun _ => false⟩ =
      (some (u.iomove false (fun _ => false) u.o
        (smin u.chunk (dpcmp (s.i_size.setWidth 32) u.u_offset))).1, u.advance (s.readable u)) := by
    simp only [IoArgs.readi, hi_size, IoArgs.bmap, hlbn.2, IoArgs.setError, reduceCtorEq, if_false,
      if_true, Bool.false_eq_true, if_neg hne, if_neg hstop, hmove]
  unfold FileDev.readTurn
  rw [if_neg hstop]
  simp only [henv, hread]
  have hdeliver : (u.iomove false (fun _ => false) u.o
      (smin u.chunk (dpcmp (s.i_size.setWidth 32) u.u_offset))).1.load (s₁.disk bn) mem =
      delivered mem u.u_base byte u.u_offset.toNat (s.readable u) := by
    funext a
    rw [hmove]
    unfold Move.load delivered
    rw [IoArgs.load_pairs mem (s₁.disk bn) _ (by omega)]
    split
    · next hlt => exact hbyte _ hlt
    · rfl
  rw [hdeliver]
  exact ⟨_, rfl⟩

/-- A turn of `readi` delivers the bytes of one block. -/
theorem Inv.readTurn (h : s.Inv) (mem : Mem) (hfree : 4 ≤ s.free.length)
    (hcount : 0 < u.u_count.toInt) (hoff : u.u_offset.toNat < s.i_size.toNat) :
    ∃ mv s', s.readTurn mem u = ((some mv, u.advance (s.readable u)), s',
        delivered mem u.u_base s.byte u.u_offset.toNat (s.readable u)) ∧ s'.Inv ∧
      s'.i_size = s.i_size ∧ s'.byte = s.byte ∧ s.free.length ≤ s'.free.length + 4 := by
  have hsize := s.i_size.isLt
  obtain ⟨bn, s₁, henv, hmapped⟩ := h.env hfree (u := u) (by omega)
  have hne : bn ≠ 0 := hmapped.ne
  have hdata : s₁.node (.data (u.u_offset.toNat / 512)) = bn := hmapped.node
  have hbyte : ∀ i < s.readable u,
      s₁.disk bn (u.u_offset.toNat % 512 + i) = s.byte (u.u_offset.toNat + i) := by
    intro i hi
    have hturn : s.readable u ≤ turn u := min_le_left _ _
    have hblock : turn u ≤ 512 - u.u_offset.toNat % 512 := min_le_left _ _
    have hidx : (u.u_offset.toNat + i) / 512 = u.u_offset.toNat / 512 := by omega
    have hmod : (u.u_offset.toNat + i) % 512 = u.u_offset.toNat % 512 + i := by omega
    rw [← hmapped.byte, FileDev.byte, hidx, hdata, if_neg hne, hmod]
  obtain ⟨mv, heq⟩ := readTurn_of_env henv hne hmapped.i_size hbyte mem hcount hoff
  exact ⟨mv, s₁, heq, hmapped.inv, hmapped.i_size, hmapped.byte, hmapped.free⟩

/-- At the end of the file nothing is moved. -/
theorem readTurn_end (mem : Mem) (hoff : u.u_offset.toNat < 2 ^ 31)
    (hend : s.i_size.toNat ≤ u.u_offset.toNat) : s.readTurn mem u = ((none, u), s, mem) := by
  have hcmp := IoArgs.dpcmp_size s.i_size hoff
  have hstop : (dpcmp (s.i_size.setWidth 32) u.u_offset).sle 0 := by
    refine BitVec.sle_iff_toInt_le.mpr ?_
    have hzero : (0 : BitVec 16).toInt = 0 := rfl
    omega
  unfold FileDev.readTurn
  rw [if_pos hstop]

/-! ## Loops -/

/-- The blocks that a transfer touches. -/
def turns (off count : ℕ) : ℕ := (off % 512 + count + 511) / 512

/-- Bytes are overwritten one after another. -/
theorem overwritten_overwritten (byte : ℕ → BitVec 8) (off n m : ℕ) (mem : Mem) (base : BitVec 16) :
    overwritten (overwritten byte off n mem base) (off + n) m mem (base + BitVec.ofNat 16 n) =
      overwritten byte off (n + m) mem base := by
  funext pos
  unfold overwritten
  by_cases hlow : off + n ≤ pos ∧ pos < off + n + m
  · have hsum : base + BitVec.ofNat 16 n + BitVec.ofNat 16 (pos - (off + n)) =
        base + BitVec.ofNat 16 (pos - off) := by
      have hpos : pos - off = n + (pos - (off + n)) := by omega
      rw [hpos, BitVec.ofNat_add, BitVec.add_assoc]
    rw [if_pos hlow, if_pos (by omega), hsum]
  · rw [if_neg hlow]
    have hiff : (off ≤ pos ∧ pos < off + n) ↔ (off ≤ pos ∧ pos < off + (n + m)) := by omega
    simp only [hiff]

/-- Bytes are delivered one after another. -/
theorem delivered_delivered (mem : Mem) (base : BitVec 16) (byte : ℕ → BitVec 8) (off : ℕ) {n m : ℕ}
    (h : n + m ≤ 65536) :
    delivered (delivered mem base byte off n) (base + BitVec.ofNat 16 n) byte (off + n) m =
      delivered mem base byte off (n + m) := by
  funext a
  unfold delivered
  by_cases hlow : (a - base).toNat < n
  · have hhigh : ¬ (a - (base + BitVec.ofNat 16 n)).toNat < m := by bv_omega
    rw [if_neg hhigh, if_pos hlow, if_pos (by omega)]
  · have hsub : (a - (base + BitVec.ofNat 16 n)).toNat = (a - base).toNat - n := by bv_omega
    have hidx : off + n + ((a - base).toNat - n) = off + (a - base).toNat := by omega
    rw [hsub, hidx, if_neg hlow]
    have hiff : (a - base).toNat - n < m ↔ (a - base).toNat < n + m := by omega
    simp only [hiff]

/-- The loop goes on as long as there is no error and something to transfer. -/
theorem again_iff {mv : Option Move} : XferSys.again (mv, u) = true ↔
    mv.isSome ∧ u.u_error = 0 ∧ u.u_count ≠ 0 := by
  simp [XferSys.again]

/-- What is left after a turn that does not finish the count. -/
theorem advance_pos {n : ℕ} (hcount : 0 < u.u_count.toInt) (hn : n < u.u_count.toNat) :
    0 < (u.advance n).u_count.toInt := by
  have hcnt := IoArgs.advance_count (u := u) hn.le
  have hnat := toNat_of_toInt_nonneg hcount.le
  have hlt := u.u_count.toInt_lt
  simp only [Nat.add_one_sub_one] at hlt
  rw [BitVec.toInt_eq_toNat_cond, hcnt]
  omega

/-- The count is used up. -/
theorem advance_u_count_eq_zero {n : ℕ} (hn : n ≤ u.u_count.toNat) :
    (u.advance n).u_count = 0 ↔ n = u.u_count.toNat := by
  have hcnt := IoArgs.advance_count hn
  constructor
  · intro h0
    rw [h0] at hcnt
    have hzero : (0 : BitVec 16).toNat = 0 := rfl
    omega
  · intro heq
    apply BitVec.eq_of_toNat_eq
    rw [hcnt, heq, Nat.sub_self]
    rfl

/-- The loop of `writei` stores all bytes, given enough free blocks. -/
theorem Inv.writeLoop (mem : Mem) {n : ℕ} (h : s.Inv) (herr : u.u_error = 0)
    (hcount : 0 < u.u_count.toInt) (hn : u.u_count.toNat ≤ n)
    (hend : u.u_offset.toNat + u.u_count.toNat < 2 ^ 24)
    (hfree : 4 * turns u.u_offset.toNat u.u_count.toNat ≤ s.free.length) :
    ∃ s', writeLoop mem n s u = (s', u.advance u.u_count.toNat) ∧ s'.Inv ∧
      s'.i_size.toNat = max s.i_size.toNat (u.u_offset.toNat + u.u_count.toNat) ∧
      s'.byte = overwritten s.byte u.u_offset.toNat u.u_count.toNat mem u.u_base ∧
      s.free.length ≤ s'.free.length + 4 * turns u.u_offset.toNat u.u_count.toNat := by
  induction n generalizing s u with
  | zero =>
    have hnat := toNat_of_toInt_nonneg hcount.le
    omega
  | succ n ih =>
    have hnat := toNat_of_toInt_nonneg hcount.le
    have hturn : turn u = min (512 - u.u_offset.toNat % 512) u.u_count.toNat := rfl
    have hfour : 4 ≤ s.free.length := by
      unfold turns at hfree
      omega
    obtain ⟨mv, s₁, heq, hinv, hsize, hbyte, hfree₁⟩ := h.writeTurn mem hfour hcount hend
    have hcnt := IoArgs.advance_count (u := u) (n := turn u) (by omega)
    have hoff := IoArgs.advance_offset (u := u) (n := turn u) (by omega)
    unfold FileDev.writeLoop
    simp only [heq]
    split
    · next hagain =>
      obtain ⟨-, -, hleft⟩ := again_iff.mp hagain
      have hlt : turn u < u.u_count.toNat := by
        refine lt_of_le_of_ne (by omega) fun hall => hleft ?_
        exact (advance_u_count_eq_zero (by omega)).mpr hall
      -- The next turn starts at a block.
      have hturns : turns (u.advance (turn u)).u_offset.toNat (u.advance (turn u)).u_count.toNat + 1 =
          turns u.u_offset.toNat u.u_count.toNat := by
        rw [hoff, hcnt]
        unfold turns
        omega
      obtain ⟨s', hloop, hinv', hsize', hbyte', hfree'⟩ := ih hinv (u := u.advance (turn u)) herr
        (advance_pos hcount hlt) (by omega) (by omega) (by omega)
      refine ⟨s', ?_, hinv', ?_, ?_, by omega⟩
      · rw [hloop, IoArgs.advance_advance, hcnt]
        congr 2
        omega
      · omega
      · rw [hbyte', hbyte, hoff, hcnt]
        have hbase : (u.advance (turn u)).u_base = u.u_base + BitVec.ofNat 16 (turn u) := rfl
        rw [hbase, overwritten_overwritten]
        congr 1
        omega
    · next hdone =>
      have hall : turn u = u.u_count.toNat := by
        by_contra hne
        refine hdone (again_iff.mpr ⟨rfl, herr, fun h0 => hne ?_⟩)
        exact (advance_u_count_eq_zero (by omega)).mp h0
      refine ⟨s₁, ?_, hinv, ?_, ?_, ?_⟩
      · rw [hall]
      · rw [hsize, hall]
      · rw [hbyte, hall]
      · unfold turns
        omega

/-- The bytes that `readi` can deliver. -/
def available (s : FileDev) (u : IoArgs) : ℕ := min u.u_count.toNat (s.i_size.toNat - u.u_offset.toNat)

/-- Behind the end of the file nothing is read. -/
theorem readLoop_end (mem : Mem) {n : ℕ} (hn : 0 < n) (hoff : u.u_offset.toNat < 2 ^ 31)
    (hend : s.i_size.toNat ≤ u.u_offset.toNat) : readLoop n s mem u = (s, mem, u) := by
  obtain ⟨n, rfl⟩ := Nat.exists_eq_succ_of_ne_zero hn.ne'
  unfold FileDev.readLoop
  rw [readTurn_end mem hoff hend]
  rfl

/-- `I k` lets the loop of `readi` make `k` turns in a file with the size and the bytes. -/
structure ReadInv (I : ℕ → FileDev → Prop) (i_size : BitVec 24) (byte : ℕ → BitVec 8) : Prop where
  size : ∀ {k s}, I k s → s.i_size = i_size
  step : ∀ {k s u} (mem : Mem), I (k + 1) s → 0 < u.u_count.toInt →
    u.u_offset.toNat < i_size.toNat →
    ∃ mv s', s.readTurn mem u = ((some mv, u.advance (s.readable u)), s',
      delivered mem u.u_base byte u.u_offset.toNat (s.readable u)) ∧ I k s'

/-- The loop of `readi` delivers all bytes up to the end of the file. -/
theorem ReadInv.readLoop {I : ℕ → FileDev → Prop} {i_size : BitVec 24} {byte : ℕ → BitVec 8}
    (hI : ReadInv I i_size byte) (mem : Mem) {n : ℕ}
    (h : I (turns u.u_offset.toNat u.u_count.toNat) s) (herr : u.u_error = 0)
    (hcount : 0 < u.u_count.toInt) (hn : u.u_count.toNat ≤ n) (hoff : u.u_offset.toNat < 2 ^ 31) :
    ∃ s' k, readLoop n s mem u = (s', delivered mem u.u_base byte u.u_offset.toNat (s.available u),
      u.advance (s.available u)) ∧ I k s' := by
  -- induction on the turns left; a turn ends at a block boundary or at the file's end
  induction n generalizing s u mem with
  | zero =>
    have hnat := toNat_of_toInt_nonneg hcount.le
    omega
  | succ n ih =>
    have hnat := toNat_of_toInt_nonneg hcount.le
    have hlt := u.u_count.toInt_lt
    have hsize := hI.size h
    have havail : s.available u = min u.u_count.toNat (s.i_size.toNat - u.u_offset.toNat) := rfl
    simp only [Nat.add_one_sub_one] at hlt
    -- at or behind the end of the file nothing is read
    rcases le_or_gt s.i_size.toNat u.u_offset.toNat with hend | hstart
    · have hnone : s.available u = 0 := by omega
      refine ⟨s, _, ?_, h⟩
      rw [readLoop_end mem n.succ_pos hoff hend, hnone, IoArgs.advance_zero]
      rfl
    · unfold FileDev.readLoop
      have hturn : turn u = min (512 - u.u_offset.toNat % 512) u.u_count.toNat := rfl
      have hread : s.readable u = min (turn u) (s.i_size.toNat - u.u_offset.toNat) := rfl
      obtain ⟨k, hk⟩ : ∃ k, turns u.u_offset.toNat u.u_count.toNat = k + 1 := by
        refine Nat.exists_eq_succ_of_ne_zero ?_
        unfold turns
        omega
      rw [hk] at h
      -- one turn: it delivers what is readable of the block
      obtain ⟨mv, s₁, heq, h₁⟩ := hI.step mem h hcount (hsize ▸ hstart)
      have hsize₁ : s₁.i_size = s.i_size := (hI.size h₁).trans hsize.symm
      have hcnt := IoArgs.advance_count (u := u) (n := s.readable u) (by omega)
      have hoff₁ := IoArgs.advance_offset (u := u) (n := s.readable u) (by omega)
      simp only [heq]
      -- go on exactly if neither count nor readable part is used up
      split
      · next hagain =>
        obtain ⟨-, -, hleft⟩ := again_iff.mp hagain
        have hmore : s.readable u < u.u_count.toNat := by
          refine lt_of_le_of_ne (by omega) fun hall => hleft ?_
          exact (advance_u_count_eq_zero (by omega)).mpr hall
        have hbase : (u.advance (s.readable u)).u_base =
            u.u_base + BitVec.ofNat 16 (s.readable u) := rfl
        rcases eq_or_ne (s.readable u) (turn u) with hfull | hcut
        · -- The next turn starts at a block.
          have hturns : turns (u.advance (s.readable u)).u_offset.toNat
              (u.advance (s.readable u)).u_count.toNat = k := by
            rw [hoff₁, hcnt]
            unfold turns at hk ⊢
            omega
          have havail₁ : s.readable u + s₁.available (u.advance (s.readable u)) = s.available u := by
            unfold available
            rw [hsize₁, hoff₁, hcnt]
            omega
          rw [← hturns] at h₁
          obtain ⟨s', k', hloop, h'⟩ := ih _ h₁ herr (advance_pos hcount hmore) (by omega) (by omega)
          refine ⟨s', k', ?_, h'⟩
          rw [hloop, IoArgs.advance_advance, havail₁, hoff₁, hbase,
            delivered_delivered _ _ _ _ (by omega), havail₁]
        · -- The file ends in this block.
          have hsame : s.available u = s.readable u := by omega
          have hend₁ : s₁.i_size.toNat ≤ (u.advance (s.readable u)).u_offset.toNat := by
            rw [hsize₁, hoff₁]
            omega
          rw [readLoop_end _ (by omega) (by omega) hend₁, hsame]
          exact ⟨s₁, k, rfl, h₁⟩
      · next hdone =>
        -- the count is used up: all of it was readable
        have hall : s.readable u = u.u_count.toNat := by
          by_contra hne
          refine hdone (again_iff.mpr ⟨rfl, herr, fun h0 => hne ?_⟩)
          exact (advance_u_count_eq_zero (by omega)).mp h0
        have hsame : s.available u = s.readable u := by omega
        exact ⟨s₁, k, by rw [hsame], h₁⟩

/-- Four free blocks are enough for a turn. -/
theorem Inv.readInv (s : FileDev) {t : ℕ} (ht : 4 * t ≤ s.free.length) :
    ReadInv (fun k s' => s'.Inv ∧ s'.i_size = s.i_size ∧ s'.byte = s.byte ∧
      s.free.length + 4 * k ≤ s'.free.length + 4 * t) s.i_size s.byte := by
  refine ⟨fun h => h.2.1, fun mem ⟨hinv, hsize, hbyte, hfree⟩ hcount hoff => ?_⟩
  obtain ⟨mv, s', heq, hinv', hsize', hbyte', hfree'⟩ :=
    hinv.readTurn mem (by omega) hcount (hsize ▸ hoff)
  rw [hbyte] at heq
  exact ⟨mv, s', heq, hinv', hsize'.trans hsize, hbyte'.trans hbyte, by omega⟩

/-- The loop of `readi` on a file, holes included. -/
theorem Inv.readLoop (mem : Mem) {n : ℕ} (h : s.Inv) (herr : u.u_error = 0)
    (hcount : 0 < u.u_count.toInt) (hn : u.u_count.toNat ≤ n) (hoff : u.u_offset.toNat < 2 ^ 31)
    (hfree : 4 * turns u.u_offset.toNat u.u_count.toNat ≤ s.free.length) :
    ∃ s', readLoop n s mem u = (s', delivered mem u.u_base s.byte u.u_offset.toNat (s.available u),
        u.advance (s.available u)) ∧ s'.Inv ∧ s'.i_size = s.i_size ∧ s'.byte = s.byte ∧
      s.free.length ≤ s'.free.length + 4 * turns u.u_offset.toNat u.u_count.toNat := by
  obtain ⟨s', k, hloop, hinv, hsize, hbyte, hfree'⟩ :=
    (Inv.readInv s hfree).readLoop mem ⟨h, rfl, rfl, le_rfl⟩ herr hcount hn hoff
  exact ⟨s', hloop, hinv, hsize, hbyte, by omega⟩

end FileDev

/-! ## Calls -/

/-- A file as its users see it: the byte that was last written at each position, or 0. -/
structure ByteFile where
  size : ℕ
  byte : ℕ → BitVec 8

/-- Calls of `writei` and `readi`, with the memory of the caller. -/
structure ByteCall where
  write : Bool
  base : BitVec 16
  count : BitVec 16
  offset : BitVec 32
  mem : Mem

namespace ByteCall

def args (c : ByteCall) : IoArgs := ⟨c.base, c.count, c.offset, 0⟩

end ByteCall

/-- What a call does to the file, and the memory and the arguments after it. -/
def ByteFile.call (f : ByteFile) (c : ByteCall) : ByteFile × Mem × IoArgs :=
  let off := c.offset.toNat
  let count := c.count.toNat
  if c.write then
    (⟨max f.size (off + count), FileDev.overwritten f.byte off count c.mem c.base⟩, c.mem,
      c.args.advance count)
  else
    let n := min count (f.size - off)
    (f, FileDev.delivered c.mem c.base f.byte off n, c.args.advance n)

namespace FileDev

/-- The same call of the kernel. -/
def call (s : FileDev) (c : ByteCall) : FileDev × Mem × IoArgs :=
  if c.write then
    let (s, u) := s.writei c.mem c.args
    (s, c.mem, u)
  else s.readi c.mem c.args

/-- A file without a block, and the free list of its device. -/
def empty (disk : BitVec 16 → Block) (free : List (BitVec 16)) : FileDev where
  ilarg := false
  i_addr _ := 0
  i_size := 0
  disk := disk
  free := free

/-- A call that ends inside the file space, and free blocks for it: four for each block of the file
that it touches are always enough. -/
def Ok (s : FileDev) (c : ByteCall) : Prop :=
  0 ≤ c.count.toInt ∧ 4 * turns c.offset.toNat c.count.toNat ≤ s.free.length ∧
    if c.write then c.count ≠ 0 ∧ c.offset.toNat + c.count.toNat < 2 ^ 24 else 0 ≤ c.offset.toInt

instance (s : FileDev) (c : ByteCall) : Decidable (s.Ok c) := by
  unfold Ok
  infer_instance

/-- A call, of the kernel's file and of the array of bytes. -/
def step (x : FileDev × ByteFile) (c : ByteCall) : Option (FileDev × ByteFile) :=
  some ((x.1.call c).1, (x.2.call c).1)

/-- The kernel's file is the array of bytes. -/
structure Refines (s : FileDev) (f : ByteFile) : Prop where
  inv : s.Inv
  size : s.i_size.toNat = f.size
  byte : s.byte = f.byte

variable {s : FileDev} {f : ByteFile}

/-- A new file is an empty byte array. -/
theorem refines_empty {disk : BitVec 16 → Block} {free : List (BitVec 16)} (hnodup : free.Nodup)
    (hzero : 0 ∉ free) : Refines (empty disk free) ⟨0, fun _ => 0⟩ := by
  have hnode : ∀ r, (empty disk free).node r = 0 := by
    intro r
    cases r <;> simp [node, empty]
  refine ⟨⟨fun r _ h0 => absurd (hnode r) h0, hnodup, hzero, fun r => ?_⟩, rfl, ?_⟩
  · rw [hnode r]
    exact hzero
  · funext pos
    rw [FileDev.byte, hnode, if_pos rfl]

theorem toInt_pos_of_ne {x : BitVec 16} (hx : 0 ≤ x.toInt) (h0 : x ≠ 0) : 0 < x.toInt := by
  refine lt_of_le_of_ne hx fun hzero => h0 (BitVec.eq_of_toInt_eq ?_)
  simpa using hzero.symm

/-- A write changes the bytes of the array. -/
theorem Refines.write (h : Refines s f) {c : ByteCall} (hwrite : c.write = true) (hok : s.Ok c) :
    Refines (s.call c).1 (f.call c).1 ∧ (s.call c).2 = (f.call c).2 := by
  obtain ⟨hcount, hfree, hspace⟩ := hok
  rw [if_pos hwrite] at hspace
  obtain ⟨h0, hend⟩ := hspace
  obtain ⟨s', hloop, hinv, hsize, hbyte, -⟩ := h.inv.writeLoop c.mem (u := c.args) rfl
    (toInt_pos_of_ne hcount h0) le_rfl hend hfree
  have hcall : s.call c = (s', c.mem, c.args.advance c.count.toNat) := by
    have hargs : c.args.u_count ≠ 0 := h0
    simp only [FileDev.call, if_pos hwrite, FileDev.writei, if_neg hargs, hloop]
    rfl
  rw [hcall]
  simp only [ByteFile.call, if_pos hwrite]
  exact ⟨⟨hinv, hsize.trans (by rw [h.size]; rfl), hbyte.trans (by rw [h.byte]; rfl)⟩, trivial⟩

/-- A read returns the bytes of the array. -/
theorem Refines.read (h : Refines s f) {c : ByteCall} (hread : ¬ c.write = true) (hok : s.Ok c) :
    Refines (s.call c).1 (f.call c).1 ∧ (s.call c).2 = (f.call c).2 := by
  obtain ⟨hcount, hfree, hspace⟩ := hok
  rw [if_neg hread] at hspace
  simp only [FileDev.call, ByteFile.call, if_neg hread, FileDev.readi]
  split
  · next h0 =>
    have hzero : c.count.toNat = 0 := congrArg BitVec.toNat h0
    refine ⟨h, ?_⟩
    rw [hzero, Nat.zero_min, IoArgs.advance_zero]
    rfl
  · next h0 =>
    have hoff : c.offset.toNat < 2 ^ 31 := by
      rw [BitVec.toInt_eq_toNat_cond] at hspace
      have hlt := c.offset.isLt
      split at hspace <;> omega
    obtain ⟨s', hloop, hinv, hsize, hbyte, -⟩ := Inv.readLoop c.mem h.inv (u := c.args) rfl
      (toInt_pos_of_ne hcount h0) le_rfl hoff hfree
    have havail : s.available c.args = min c.count.toNat (f.size - c.offset.toNat) := by
      rw [← h.size]
      rfl
    rw [hloop, havail, h.byte]
    exact ⟨⟨hinv, (congrArg BitVec.toNat hsize).trans h.size, hbyte.trans h.byte⟩, rfl⟩

/-- Each call is that of the byte array. -/
theorem Refines.call (h : Refines s f) {c : ByteCall} (hok : s.Ok c) :
    Refines (s.call c).1 (f.call c).1 ∧ (s.call c).2 = (f.call c).2 := by
  by_cases hwrite : c.write = true
  · exact h.write hwrite hok
  · exact h.read hwrite hok

/-- Started with an empty file, the kernel's file is the array of bytes after any sequence of calls,
and each call does to the memory and the arguments of its caller what it does on the array. -/
theorem byteArray_of_reachable {disk : BitVec 16 → Block} {free : List (BitVec 16)}
    (hnodup : free.Nodup) (hzero : 0 ∉ free)
    (h : Reachable step (fun x c => x.1.Ok c) (empty disk free, ⟨0, fun _ => 0⟩) (s, f)) :
    s.i_size.toNat = f.size ∧ s.byte = f.byte ∧
      ∀ c, s.Ok c → (s.call c).2 = (f.call c).2 ∧ (s.call c).1.i_size.toNat = (f.call c).1.size ∧
        (s.call c).1.byte = (f.call c).1.byte := by
  have href : Refines s f := h.invariant (P := fun x => Refines x.1 x.2)
    (refines_empty hnodup hzero) fun x c x' href hok hs => by
      obtain rfl := Option.some.inj hs
      exact (href.call hok).1
  refine ⟨href.size, href.byte, fun c hok => ?_⟩
  obtain ⟨hnext, hresult⟩ := href.call hok
  exact ⟨hresult, hnext.size, hnext.byte⟩

/-- Writes into blocks 0, 8 to 10 and 1800: in the inode, behind an indirect block, and behind two. -/
def threeRegimes : List ByteCall :=
  [⟨true, 0x2000, 5, 0, fun a => a.setWidth 8⟩, ⟨true, 0x3000, 1200, 4600, fun _ => 7⟩,
    ⟨true, 0x2000, 3, 921600, fun a => a.setWidth 8⟩]

/-- Sixty free blocks. -/
def sixty : List (BitVec 16) := (List.range 60).map fun i => BitVec.ofNat 16 (i + 10)

/-- A file with direct, single and double indirect blocks. -/
theorem byteArray_of_reachable_threeRegimes : ∃ (s : FileDev) (f : ByteFile), (s.i_size.toNat = f.size ∧
      s.byte = f.byte ∧ ∀ c, s.Ok c → (s.call c).2 = (f.call c).2 ∧
        (s.call c).1.i_size.toNat = (f.call c).1.size ∧ (s.call c).1.byte = (f.call c).1.byte) ∧
      s.i_addr 7 ≠ 0 ∧ f.size = 921603 := by
  have hrun : (checkedSteps step (fun x c => decide (x.1.Ok c)) threeRegimes
      (empty (fun _ _ => 0xff) sixty, ⟨0, fun _ => 0⟩)).any
      (fun x => x.1.i_addr 7 ≠ 0 ∧ x.2.size = 921603) = true := by
    decide +kernel
  obtain ⟨⟨s, f⟩, hs, hend⟩ := (Option.any_eq_true _ _).mp hrun
  have hreach := Reachable.refl.of_checkedSteps (fun _ _ hcheck => of_decide_eq_true hcheck) hs
  exact ⟨s, f, byteArray_of_reachable (by decide) (by decide) hreach, of_decide_eq_true hend⟩

end FileDev

end UnixV6
