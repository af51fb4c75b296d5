import UnixV6.Ken.FileBytes

/-!
# Offsets outside the file space (`seek` of `ken/sys2.c`, with `readi`, `writei` and `bmap`)

A file offset has 32 bits, a size 24, and a block number is an `int` of 16 bits of which `bmap` looks
at the sign only. An offset with bit 24 set is refused; any other outside the file space is taken for
the one inside that has the same lower bits.
-/

open Function

namespace UnixV6

/-- `seek`: the new offset of the file. -/
def seek (f_offset : BitVec 32) (i_size : BitVec 24) (t arg : BitVec 16) : BitVec 32 :=
  let n : BitVec 32 :=
    if (2 : BitVec 16).slt t then
      let n0 := arg.sshiftRight 7
      (if t = 3 then n0 &&& 0o777 else n0) ++ (arg <<< 9)
    else (if t ≠ 0 ∧ arg.slt 0 then (-1 : BitVec 16) else 0) ++ arg
  if t = 1 ∨ t = 4 then n + f_offset
  else if t = 0 ∨ t = 3 then n
  else n + i_size.setWidth 32

/-- The offset after a sequence of `seek` calls on a file. -/
def seeks (i_size : BitVec 24) (calls : List (BitVec 16 × BitVec 16)) : BitVec 32 :=
  calls.foldl (fun off c => seek off i_size c.1 c.2) 0

/-! ## Block numbers -/

namespace IoArgs

variable {u : IoArgs}

/-- The sign of a block number is bit 24 of the offset. -/
theorem lbn_msb (u : IoArgs) : u.lbn.msb = u.u_offset.getLsbD 24 := by
  simp [lbn, BitVec.msb_setWidth, BitVec.getElem_sshiftRight]

/-- A turn does not raise the count. -/
theorem writei_u_count (hcount : 0 < u.u_count.toInt) (e : Env) :
    (u.writei .file e).2.u_count.toNat ≤ u.u_count.toNat := by
  rcases u.writei_cases .file e with ⟨-, hbn, hnone⟩ | ⟨err, m, hm, heq, -⟩
  · simp only [IoArgs.writei, reduceCtorEq, if_false, if_pos hbn, setError_u_count, le_refl]
  · obtain ⟨-, n, -, hmoved⟩ := iomove_pos hm hcount le_rfl (chunk_pos hcount)
    have hsub := hmoved.u_count
    rw [heq]
    dsimp only
    omega

/-- `readi` makes no count larger. -/
theorem readi_u_count (hcount : 0 < u.u_count.toInt) (i_size : BitVec 24) (e : Env) :
    (u.readi .file i_size e).2.u_count.toNat ≤ u.u_count.toNat := by
  rcases u.readi_cases .file i_size e with ⟨-, hstop, hnone⟩ | ⟨an, err, m, hm, heq, -, hle, hpos, -⟩
  · simp only [IoArgs.readi, reduceCtorEq, if_false]
    split
    · exact le_rfl
    · split
      · rw [setError_u_count]
      · next hsle hbn =>
        rcases hstop with hstop | hstop
        · exact absurd (BitVec.sle_iff_toInt_le.mpr hstop) hsle
        · exact absurd hstop hbn
  · obtain ⟨-, n, -, hmoved⟩ := iomove_pos hm hcount hle (hpos (chunk_pos hcount))
    have hsub := hmoved.u_count
    rw [heq]
    dsimp only
    omega

end IoArgs

namespace FileDev

variable {s : FileDev} {u : IoArgs} {mem : Mem}

/-- `bmap` finds the block of an offset that is not too large. -/
theorem Inv.env_of_msb (h : s.Inv) (hfree : 4 ≤ s.free.length) (hmsb : u.lbn.msb = false) :
    ∃ bn s', s.env u = (⟨bn, 0, fun _ => false⟩, s') ∧ Mapped s u.lbn.toNat 4 (bn, s') := by
  have hlt : u.lbn.toNat < 32768 := by
    rw [BitVec.msb_eq_decide] at hmsb
    simpa using hmsb
  have hmapped := h.bmap_mapped hfree hlt
  unfold FileDev.env
  rw [if_neg (by simp [hmsb])]
  generalize s.bmap u.lbn.toNat = x at hmapped ⊢
  obtain ⟨bn, s'⟩ := x
  exact ⟨bn, s', by simp only [if_neg hmapped.ne], hmapped⟩

/-- A smaller count that is not 0. -/
theorem toInt_pos_of_le {x y : BitVec 16} (hy : 0 < y.toInt) (hle : x.toNat ≤ y.toNat)
    (h0 : x ≠ 0) : 0 < x.toInt := by
  have hnat := toNat_of_toInt_nonneg hy.le
  have hlt := y.toInt_lt
  have hpos : x.toNat ≠ 0 := fun hzero => h0 (BitVec.eq_of_toNat_eq (by simpa using hzero))
  simp only [Nat.add_one_sub_one] at hlt
  rw [BitVec.toInt_eq_toNat_cond]
  omega

/-- A turn of `writei` makes no count larger. -/
theorem writeTurn_u_count (hcount : 0 < u.u_count.toInt) :
    (s.writeTurn mem u).1.2.u_count.toNat ≤ u.u_count.toNat := by
  have hle := IoArgs.writei_u_count hcount (s.env u).1
  unfold writeTurn
  dsimp only
  split <;> exact hle

/-- A turn of `readi` makes no count larger. -/
theorem readTurn_u_count (hcount : 0 < u.u_count.toInt) :
    (s.readTurn mem u).1.2.u_count.toNat ≤ u.u_count.toNat := by
  have hle := IoArgs.readi_u_count hcount (s.env u).2.i_size (s.env u).1
  unfold readTurn
  split
  · exact le_rfl
  · dsimp only
    split <;> exact hle

/-- `writei` makes no count larger. -/
theorem writeLoop_u_count (n : ℕ) (hcount : 0 < u.u_count.toInt) :
    (writeLoop mem n s u).2.u_count.toNat ≤ u.u_count.toNat := by
  induction n generalizing s u with
  | zero => exact le_rfl
  | succ n ih =>
    have hle : (s.writeTurn mem u).1.2.u_count.toNat ≤ u.u_count.toNat := writeTurn_u_count hcount
    unfold FileDev.writeLoop
    dsimp only
    split
    · next hagain =>
      obtain ⟨-, -, h0⟩ := again_iff.mp hagain
      exact (ih (toInt_pos_of_le hcount hle h0)).trans hle
    · exact hle

/-- `readi` makes no count larger. -/
theorem readLoop_u_count (n : ℕ) (hcount : 0 < u.u_count.toInt) :
    (readLoop n s mem u).2.2.u_count.toNat ≤ u.u_count.toNat := by
  induction n generalizing s u mem with
  | zero => exact le_rfl
  | succ n ih =>
    have hle : (s.readTurn mem u).1.2.u_count.toNat ≤ u.u_count.toNat := readTurn_u_count hcount
    unfold FileDev.readLoop
    dsimp only
    split
    · next hagain =>
      obtain ⟨-, -, h0⟩ := again_iff.mp hagain
      exact (ih (toInt_pos_of_le hcount hle h0)).trans hle
    · exact hle

/-! ## Writes -/

/-- A write moves its bytes to their positions, up to the end of the file space, and the size grows
with them; outside it moves nothing and changes nothing, with `EFBIG`. -/
structure WriteInSpace (s : FileDev) (mem : Mem) (u : IoArgs) (x : FileDev × IoArgs) : Prop where
  inside : u.u_offset.toNat < 2 ^ 24 → ∀ n, n = min u.u_count.toNat (2 ^ 24 - u.u_offset.toNat) →
    x.2 = { u.advance n with u_error := if n < u.u_count.toNat then EFBIG else 0 } ∧
      x.1.i_size.toNat = max s.i_size.toNat (u.u_offset.toNat + n) ∧
      x.1.byte = overwritten s.byte u.u_offset.toNat n mem u.u_base
  outside : 2 ^ 24 ≤ u.u_offset.toNat → x = (s, { u with u_error := EFBIG })

/-- Behind the largest block `writei` fails. -/
theorem writeTurn_efbig (hmsb : u.lbn.msb = true) :
    s.writeTurn mem u = ((none, { u with u_error := EFBIG }), s) := by
  have henv : s.env u = (⟨0, EFBIG, fun _ => false⟩, s) := by
    simp only [FileDev.env, hmsb, if_true]
  have hwrite : u.writei .file ⟨0, EFBIG, fun _ => false⟩ =
      (none, { u with u_error := EFBIG }) := by
    simp only [IoArgs.writei, IoArgs.bmap, hmsb, reduceCtorEq, if_false, if_true, IoArgs.setError]
    rfl
  simp only [writeTurn, henv, hwrite]

theorem exists_turn (hcount : 0 < u.u_count.toInt) : ∃ n, u.u_count.toNat = n + 1 := by
  have hnat := toNat_of_toInt_nonneg hcount.le
  exact ⟨u.u_count.toNat - 1, by omega⟩

/-- A block is found for the offset, so something is moved. -/
theorem Inv.writei_lt (h : s.Inv) (hfree : 4 ≤ s.free.length) (hcount : 0 < u.u_count.toInt)
    (hmsb : u.lbn.msb = false) : (s.writei mem u).2.u_count.toNat < u.u_count.toNat := by
  obtain ⟨bn, s₁, henv, hmapped⟩ := h.env_of_msb hfree hmsb
  have hne : bn ≠ 0 := hmapped.ne
  have hchunk := IoArgs.chunk_toNat hcount
  have hnat := toNat_of_toInt_nonneg hcount.le
  have hmove : u.iomove true (fun _ => false) u.o u.chunk =
      (⟨u.o, u.chunk, IoArgs.pairs u.o.toInt u.u_base u.chunk.toNat⟩, u.advance u.chunk.toNat) := by
    unfold IoArgs.iomove
    rw [IoArgs.iomoveLoop_eq true _ (by omega)]
  have hturn : (s.writeTurn mem u).1.2 = u.advance u.chunk.toNat := by
    simp only [FileDev.writeTurn, henv, IoArgs.writei, IoArgs.bmap, hmsb, IoArgs.setError, reduceCtorEq,
      if_false, if_true, Bool.false_eq_true, if_neg hne, hmove]
  have hlt : (s.writeTurn mem u).1.2.u_count.toNat < u.u_count.toNat := by
    rw [hturn, IoArgs.advance_count (by omega)]
    omega
  have h0 : u.u_count ≠ 0 := by
    intro h0
    rw [h0] at hcount
    exact absurd hcount (lt_irrefl _)
  -- the first turn moves something, and the others give nothing back
  obtain ⟨n, hn⟩ := exists_turn hcount
  rw [FileDev.writei, if_neg h0, hn]
  unfold FileDev.writeLoop
  dsimp only
  split
  · next hagain =>
    obtain ⟨-, -, hleft⟩ := again_iff.mp hagain
    exact (writeLoop_u_count n (toInt_pos_of_le hcount hlt.le hleft)).trans_lt (hn ▸ hlt)
  · exact hn ▸ hlt

/-- What is written lies in the space of the file, if and only if the end of the write does. -/
theorem Inv.writeInSpace_iff (h : s.Inv) (herr : u.u_error = 0) (hcount : 0 < u.u_count.toInt)
    (hfree : 4 * turns u.u_offset.toNat u.u_count.toNat ≤ s.free.length) :
    WriteInSpace s mem u (s.writei mem u) ↔ u.u_offset.toNat + u.u_count.toNat < 2 ^ 24 ∨
      2 ^ 24 ≤ u.u_offset.toNat ∧ u.u_offset.getLsbD 24 = true := by
  have h0 : u.u_count ≠ 0 := by
    intro h0
    rw [h0] at hcount
    exact absurd hcount (lt_irrefl _)
  have hnat := toNat_of_toInt_nonneg hcount.le
  -- the condition is needed: in each range the write shows what it did
  constructor
  · intro hspace
    rcases lt_or_ge u.u_offset.toNat (2 ^ 24) with hin | hout
    · -- A size of 2 ^ 24 is no size.
      refine .inl ?_
      obtain ⟨-, hsize, -⟩ := hspace.inside hin _ rfl
      have hlt := (s.writei mem u).1.i_size.isLt
      omega
    · refine .inr ⟨hout, ?_⟩
      rw [← IoArgs.lbn_msb]
      by_contra hmsb
      -- there is room for one turn, so the count would have moved
      have hfour : 4 ≤ s.free.length := by
        unfold turns at hfree
        omega
      have hlt : (s.writei mem u).2.u_count.toNat < u.u_count.toNat :=
        h.writei_lt hfour hcount (by simpa using hmsb)
      rw [hspace.outside hout] at hlt
      exact lt_irrefl _ hlt
  -- the condition is enough
  · rintro (hin | ⟨hout, hbit⟩)
    · obtain ⟨s', hloop, -, hsize, hbyte, -⟩ := h.writeLoop mem herr hcount le_rfl hin hfree
      rw [FileDev.writei, if_neg h0, hloop]
      refine ⟨fun _ n hn => ?_, fun hout => absurd hin (by omega)⟩
      obtain rfl : n = u.u_count.toNat := by omega
      rw [if_neg (lt_irrefl _)]
      exact ⟨by rw [← herr]; rfl, hsize, hbyte⟩
    -- at or above the limit: refused in the first turn, nothing moved
    · refine ⟨fun hin => absurd hin (by omega), fun _ => ?_⟩
      obtain ⟨n, hn⟩ := exists_turn hcount
      rw [FileDev.writei, if_neg h0, hn]
      unfold FileDev.writeLoop
      rw [writeTurn_efbig (by rw [IoArgs.lbn_msb, hbit])]
      rfl

/-! ## Reads -/

/-- Nothing is transferred, and no block is allocated. -/
structure ReadsNothing (s : FileDev) (mem : Mem) (u : IoArgs) (x : FileDev × Mem × IoArgs) : Prop where
  file : x.1 = s
  mem : x.2.1 = mem
  u_count : x.2.2.u_count = u.u_count

/-- A read without a transfer reads nothing. -/
theorem readsNothing_of_turn (h0 : u.u_count ≠ 0) {v : IoArgs} (hv : v.u_count = u.u_count)
    (hturn : s.readTurn mem u = ((none, v), s, mem)) : ReadsNothing s mem u (s.readi mem u) := by
  obtain ⟨n, hn⟩ := Nat.exists_eq_succ_of_ne_zero (n := u.u_count.toNat)
    fun hzero => h0 (BitVec.eq_of_toNat_eq hzero)
  rw [FileDev.readi, if_neg h0, hn]
  unfold FileDev.readLoop
  rw [hturn]
  exact ⟨rfl, rfl, hv⟩

/-- Behind the largest block `readi` fails. -/
theorem readTurn_efbig (mem : Mem) (hmsb : u.lbn.msb = true) :
    ∃ v : IoArgs, v.u_count = u.u_count ∧ s.readTurn mem u = ((none, v), s, mem) := by
  have henv : s.env u = (⟨0, EFBIG, fun _ => false⟩, s) := by
    simp only [FileDev.env, hmsb, if_true]
  unfold readTurn
  split
  · exact ⟨u, rfl, rfl⟩
  · next hstop =>
    have hread : u.readi .file s.i_size ⟨0, EFBIG, fun _ => false⟩ = (none, u.setError EFBIG) := by
      simp only [IoArgs.readi, IoArgs.bmap, hmsb, reduceCtorEq, if_false, if_true, if_neg hstop]
    simp only [henv, hread]
    exact ⟨u.setError EFBIG, IoArgs.setError_u_count u EFBIG, rfl⟩

/-- The end of the file seems to be ahead, and a block is found, so something is moved. -/
theorem Inv.readi_lt (h : s.Inv) (hfree : 4 ≤ s.free.length) (hcount : 0 < u.u_count.toInt)
    (hmsb : u.lbn.msb = false) (hcmp : 0 < (dpcmp (s.i_size.setWidth 32) u.u_offset).toInt) :
    (s.readi mem u).2.2.u_count.toNat < u.u_count.toNat := by
  obtain ⟨bn, s₁, henv, hmapped⟩ := h.env_of_msb hfree hmsb
  have hne : bn ≠ 0 := hmapped.ne
  have hi_size : s₁.i_size = s.i_size := hmapped.i_size
  -- the comparison does not end the read
  have hstop : ¬ (dpcmp (s.i_size.setWidth 32) u.u_offset).sle 0 := by
    intro hsle
    have hle : (dpcmp (s.i_size.setWidth 32) u.u_offset).toInt ≤ 0 := BitVec.sle_iff_toInt_le.mp hsle
    omega
  have hchunk := IoArgs.chunk_toNat hcount
  have hpos := IoArgs.chunk_pos hcount
  have hnat := toNat_of_toInt_nonneg hcount.le
  have hmin := smin_toInt u.chunk (dpcmp (s.i_size.setWidth 32) u.u_offset)
  have hcnat := toNat_of_toInt_nonneg hpos.le
  have han := toNat_of_toInt_nonneg (x := smin u.chunk (dpcmp (s.i_size.setWidth 32) u.u_offset))
    (by omega)
  have hturn : (s.readTurn mem u).1.2 =
      u.advance (smin u.chunk (dpcmp (s.i_size.setWidth 32) u.u_offset)).toNat := by
    have hmove : u.iomove false (fun _ => false) u.o
        (smin u.chunk (dpcmp (s.i_size.setWidth 32) u.u_offset)) =
        (⟨u.o, smin u.chunk (dpcmp (s.i_size.setWidth 32) u.u_offset), IoArgs.pairs u.o.toInt u.u_base
          (smin u.chunk (dpcmp (s.i_size.setWidth 32) u.u_offset)).toNat⟩,
          u.advance (smin u.chunk (dpcmp (s.i_size.setWidth 32) u.u_offset)).toNat) := by
      unfold IoArgs.iomove
      rw [IoArgs.iomoveLoop_eq false _ (by omega)]
    unfold FileDev.readTurn
    rw [if_neg hstop]
    simp only [henv, IoArgs.readi, hi_size, IoArgs.bmap, hmsb, IoArgs.setError, reduceCtorEq,
      if_false, if_true, Bool.false_eq_true, if_neg hne, if_neg hstop, hmove]
  have hlt : (s.readTurn mem u).1.2.u_count.toNat < u.u_count.toNat := by
    rw [hturn, IoArgs.advance_count (by omega)]
    omega
  have h0 : u.u_count ≠ 0 := by
    intro h0
    rw [h0] at hcount
    exact absurd hcount (lt_irrefl _)
  obtain ⟨n, hn⟩ := exists_turn hcount
  rw [FileDev.readi, if_neg h0, hn]
  unfold FileDev.readLoop
  dsimp only
  split
  · next hagain =>
    obtain ⟨-, -, hleft⟩ := again_iff.mp hagain
    exact (readLoop_u_count n (toInt_pos_of_le hcount hlt.le hleft)).trans_lt (hn ▸ hlt)
  · exact hn ▸ hlt

/-- A read outside the file reads nothing, unless the offset is cut. -/
theorem Inv.readsNothing_iff (h : s.Inv) (hcount : 0 < u.u_count.toInt) (hfree : 4 ≤ s.free.length)
    (hout : u.u_offset.toInt < 0 ∨ s.i_size.toNat ≤ u.u_offset.toInt) :
    ReadsNothing s mem u (s.readi mem u) ↔ 0 ≤ u.u_offset.toInt ∨ u.u_offset.getLsbD 24 = true ∨
      2 ^ 31 ≤ s.i_size.toNat - u.u_offset.toInt := by
  have h0 : u.u_count ≠ 0 := by
    intro h0
    rw [h0] at hcount
    exact absurd hcount (lt_irrefl _)
  have hsize := s.i_size.isLt
  have hlow := u.u_offset.le_toInt
  have hhigh := u.u_offset.toInt_lt
  have hdiff := dpcmp_toInt (s.i_size.setWidth 32) u.u_offset
  rw [BitVec.toInt_sub, size_toInt, Int.bmod_def] at hdiff
  simp only [Nat.add_one_sub_one] at hlow hhigh
  -- where the comparison is not positive, nothing is read
  have hstop : (dpcmp (s.i_size.setWidth 32) u.u_offset).toInt ≤ 0 →
      ReadsNothing s mem u (s.readi mem u) := by
    intro hle
    refine readsNothing_of_turn h0 rfl ?_
    unfold FileDev.readTurn
    rw [if_pos (BitVec.sle_iff_toInt_le.mpr hle)]
  constructor
  · intro hnothing
    -- otherwise the offset is near and its block number is not negative
    by_contra hcond
    obtain ⟨hneg, hbit, hnear⟩ : u.u_offset.toInt < 0 ∧ ¬ u.u_offset.getLsbD 24 = true ∧
        s.i_size.toNat - u.u_offset.toInt < 2 ^ 31 := by
      simpa only [not_or, not_le] using hcond
    have hlt : (s.readi mem u).2.2.u_count.toNat < u.u_count.toNat :=
      h.readi_lt hfree hcount (by rw [IoArgs.lbn_msb]; simpa using hbit) (by omega)
    rw [hnothing.u_count] at hlt
    exact lt_irrefl _ hlt
  · rintro (hpos | hbit | hfar)
    · exact hstop (by omega)
    · obtain ⟨v, hv, hturn⟩ := readTurn_efbig (s := s) mem (u := u)
        (by rw [IoArgs.lbn_msb, hbit])
      exact readsNothing_of_turn h0 hv hturn
    · exact hstop (by omega)

/-! ## The results -/

/-- With four free blocks for each block of the file that the call touches: a write keeps to the file
space exactly if it ends in it, or starts outside with bit 24 of the offset set; a read at a negative
offset or at the end of the file reads nothing exactly if the offset is not negative, has bit 24 set,
or is so far off that the distance to the end of the file is no positive number. -/
theorem inSpace_iff (h : s.Inv) (mem : Mem) (herr : u.u_error = 0) (hcount : 0 < u.u_count.toInt)
    (hfree : 4 * turns u.u_offset.toNat u.u_count.toNat ≤ s.free.length) :
    (WriteInSpace s mem u (s.writei mem u) ↔ u.u_offset.toNat + u.u_count.toNat < 2 ^ 24 ∨
      2 ^ 24 ≤ u.u_offset.toNat ∧ u.u_offset.getLsbD 24 = true) ∧
    (u.u_offset.toInt < 0 ∨ s.i_size.toNat ≤ u.u_offset.toInt →
      (ReadsNothing s mem u (s.readi mem u) ↔ 0 ≤ u.u_offset.toInt ∨
        u.u_offset.getLsbD 24 = true ∨ 2 ^ 31 ≤ s.i_size.toNat - u.u_offset.toInt)) := by
  have hnat := toNat_of_toInt_nonneg hcount.le
  have hfour : 4 ≤ s.free.length := by
    unfold turns at hfree
    omega
  exact ⟨h.writeInSpace_iff herr hcount hfree, h.readsNothing_iff hcount hfour⟩

/-- A write that is refused, and a read behind the end. -/
theorem inSpace_iff_refused : WriteInSpace (empty (fun _ => Block.zero) sixty) (fun _ => 1)
      ⟨0x2000, 10, 0x1000000, 0⟩ ((empty (fun _ => Block.zero) sixty).writei (fun _ => 1)
        ⟨0x2000, 10, 0x1000000, 0⟩) ∧
    ReadsNothing (empty (fun _ => Block.zero) sixty) (fun _ => 1) ⟨0x2000, 10, 0xff000000, 0⟩
      ((empty (fun _ => Block.zero) sixty).readi (fun _ => 1) ⟨0x2000, 10, 0xff000000, 0⟩) := by
  have hinv : (empty (fun _ => Block.zero) sixty).Inv := (refines_empty (by decide) (by decide)).inv
  obtain ⟨hwrite, -⟩ := inSpace_iff (u := ⟨0x2000, 10, 0x1000000, 0⟩) hinv (fun _ => 1) rfl
    (by decide) (by decide)
  obtain ⟨-, hread⟩ := inSpace_iff (u := ⟨0x2000, 10, 0xff000000, 0⟩) hinv (fun _ => 1) rfl
    (by decide) (by decide)
  exact ⟨hwrite.mpr (by decide), (hread (by decide)).mpr (by decide)⟩

/-- Two block seeks and a seek lead to offset 2^25 of an empty file. Writing there writes block 0. -/
theorem not_writeInSpace : ¬ ∀ (s : FileDev) (mem : Mem) (u : IoArgs)
    (calls : List (BitVec 16 × BitVec 16)), s.Inv → u.u_error = 0 → 0 < u.u_count.toInt →
    4 * turns u.u_offset.toNat u.u_count.toNat ≤ s.free.length →
    u.u_offset = seeks s.i_size calls → WriteInSpace s mem u (s.writei mem u) := by
  intro hall
  have hinv : (empty (fun _ => Block.zero) sixty).Inv := (refines_empty (by decide) (by decide)).inv
  have hspace := hall (empty (fun _ => Block.zero) sixty) (fun _ => 1) ⟨0x2000, 10, 0x2000000, 0⟩
    [(3, 0x8000), (4, 0x7fff), (1, 0x200)] hinv rfl (by decide) (by decide) (by decide)
  have hcond := (hinv.writeInSpace_iff rfl (by decide) (by decide)).mp hspace
  revert hcond
  decide

end FileDev

end UnixV6
