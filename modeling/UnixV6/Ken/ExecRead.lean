import UnixV6.Ken.Exec

/-!
# What `readi` stores for `exec`

A transfer with a count that is not negative stores no more than the count and no more than the file
has, at addresses side by side, and it is complete if and only if no block on its way has an error. A
negative count that meets a byte of the file moves as many bytes as the count has unsigned, all from
one buffer and from what lies behind it.
-/

open Function

namespace UnixV6

/-- `n` bytes side by side from `base` on. -/
def bytesAt (base : BitVec 16) (n : ℕ) (val : ℕ → Byte) : List Store :=
  (List.range n).map fun i => (base + BitVec.ofNat 16 i, val i)

/-- Two groups of bytes one after another. -/
theorem bytesAt_append (base : BitVec 16) (n m : ℕ) (val val' : ℕ → Byte) :
    bytesAt base n val ++ bytesAt (base + BitVec.ofNat 16 n) m val' =
      bytesAt base (n + m) (fun i => if i < n then val i else val' (i - n)) := by
  unfold bytesAt
  rw [List.range_add, List.map_append, List.map_map]
  congr 1
  · refine List.map_congr_left fun i hi => ?_
    dsimp only
    rw [if_pos (List.mem_range.mp hi)]
  · refine List.map_congr_left fun i _ => ?_
    simp only [comp_apply]
    rw [if_neg (by omega), Nat.add_sub_cancel_left, BitVec.ofNat_add, BitVec.add_assoc]

/-- The bytes of a group with their addresses. -/
theorem mem_bytesAt {base a : BitVec 16} {n : ℕ} {val : ℕ → Byte} {b : Byte} :
    (a, b) ∈ bytesAt base n val ↔ ∃ i < n, base + BitVec.ofNat 16 i = a ∧ val i = b := by
  simp [bytesAt]

/-- The bytes that a transfer stores. -/
theorem IoArgs.pairs_stores (o : ℕ) (base : BitVec 16) (n : ℕ) (b : Block) :
    (pairs o base n).map (fun x => (x.2, b x.1.toNat)) = bytesAt base n fun i => b (o + i) := by
  unfold pairs bytesAt
  rw [List.map_map]
  refine List.map_congr_left fun i _ => ?_
  show (_, b ((o : ℤ) + (i : ℤ)).toNat) = _
  rw [show ((o : ℤ) + (i : ℤ)).toNat = o + i from by omega]

namespace ExecFile

variable {f : ExecFile} {r : ExecRead} {u : IoArgs}

/-- The size of the file. -/
def size (f : ExecFile) : ℕ := f.ip.i_size.toNat

/-- What a transfer can deliver. -/
def available (f : ExecFile) (u : IoArgs) : ℕ := min u.u_count.toNat (f.size - u.u_offset.toNat)

/-- The bytes that a turn moves: what is left of the block, of the count or of the file, but all of a
count that is negative. -/
def moves (f : ExecFile) (u : IoArgs) : ℕ :=
  if 0 ≤ u.u_count.toInt then min (512 - u.u_offset.toNat % 512) (f.available u) else u.u_count.toNat

/-- No block of the bytes from `a` to `b` has an error. -/
def NoErr (f : ExecFile) (r : ExecRead) (a b : ℕ) : Prop :=
  ∀ pos, a ≤ pos → pos < b → (f.fetch r (pos / 512)).err = 0

theorem size_lt (f : ExecFile) : f.size < 2 ^ 24 := f.ip.i_size.isLt

theorem moves_le : f.moves u ≤ u.u_count.toNat := by
  unfold moves available
  split <;> omega

/-! ## A turn -/

/-- At the end of the file nothing is moved. -/
theorem turn_end (hoff : u.u_offset.toNat < 2 ^ 31) (hend : f.size ≤ u.u_offset.toNat) :
    f.turn r u = (none, u) := by
  have hcmp := IoArgs.dpcmp_size f.ip.i_size hoff
  have hstop : (dpcmp (f.ip.i_size.setWidth 32) u.u_offset).sle 0 := by
    refine BitVec.sle_iff_toInt_le.mpr ?_
    have hzero : (0 : BitVec 16).toInt = 0 := rfl
    unfold size at hend
    omega
  unfold turn IoArgs.readi
  rw [if_neg (by decide)]
  dsimp only
  rw [if_pos hstop]

/-- The length that `iomove` is given. -/
theorem smin_toNat (h0 : u.u_count ≠ 0) (hlt : u.u_offset.toNat < f.size) :
    (smin u.chunk (dpcmp (f.ip.i_size.setWidth 32) u.u_offset)).toNat = f.moves u := by
  have hsize := f.size_lt
  have hcmp := IoArgs.dpcmp_size f.ip.i_size (u := u) (by omega)
  have hval := smin_toInt u.chunk (dpcmp (f.ip.i_size.setWidth 32) u.u_offset)
  have hchunk := IoArgs.chunk_toInt u
  rw [IoArgs.o_toNat] at hchunk
  have hne : u.u_count.toInt ≠ 0 := fun h => h0 (BitVec.eq_of_toInt_eq h)
  unfold moves available
  unfold size at hlt ⊢
  split
  · next hpos =>
    have hnat := toNat_of_toInt_nonneg hpos
    have hnat' := toNat_of_toInt_nonneg (x := smin u.chunk (dpcmp (f.ip.i_size.setWidth 32) u.u_offset))
      (by omega)
    omega
  · next hneg =>
    -- A negative count is less than both of the others.
    have heq : smin u.chunk (dpcmp (f.ip.i_size.setWidth 32) u.u_offset) = u.u_count :=
      BitVec.eq_of_toInt_eq (by omega)
    rw [heq]

/-- A turn inside the file. -/
theorem turn_eq (hlt : u.u_offset.toNat < f.size) :
    f.turn r u =
      if (f.fetch r (u.u_offset.toNat / 512)).bn = 0 then
        (none, u.setError (f.fetch r (u.u_offset.toNat / 512)).err)
      else
        let (mv, u') := (u.setError (f.fetch r (u.u_offset.toNat / 512)).err).iomove false
          (fun _ => false) u.o (smin u.chunk (dpcmp (f.ip.i_size.setWidth 32) u.u_offset))
        (some mv, u') := by
  have hsize := f.size_lt
  have hcmp := IoArgs.dpcmp_size f.ip.i_size (u := u) (by omega)
  obtain ⟨hlbn, hmsb⟩ := IoArgs.lbn_toNat (u := u) (by omega)
  have hgo : ¬ (dpcmp (f.ip.i_size.setWidth 32) u.u_offset).sle 0 := by
    intro hsle
    have hle : (dpcmp (f.ip.i_size.setWidth 32) u.u_offset).toInt ≤ 0 :=
      BitVec.sle_iff_toInt_le.mp hsle
    unfold size at hlt
    omega
  unfold turn IoArgs.readi
  rw [if_neg (by decide)]
  dsimp only
  rw [if_neg hgo, IoArgs.bmap, hmsb, hlbn]
  rfl

/-- Without the block there is an error, or nothing. -/
theorem turn_missing (hlt : u.u_offset.toNat < f.size)
    (hbn : (f.fetch r (u.u_offset.toNat / 512)).bn = 0) :
    f.turn r u = (none, u.setError (f.fetch r (u.u_offset.toNat / 512)).err) := by
  rw [turn_eq hlt, if_pos hbn]

@[simp]
theorem setError_u_count (err : ℕ) : (u.setError err).u_count = u.u_count := by
  unfold IoArgs.setError
  split <;> rfl

@[simp]
theorem setError_u_base (err : ℕ) : (u.setError err).u_base = u.u_base := by
  unfold IoArgs.setError
  split <;> rfl

@[simp]
theorem setError_u_offset (err : ℕ) : (u.setError err).u_offset = u.u_offset := by
  unfold IoArgs.setError
  split <;> rfl

/-- With the block the turn moves its bytes. -/
theorem turn_move (h0 : u.u_count ≠ 0) (hlt : u.u_offset.toNat < f.size)
    (hbn : (f.fetch r (u.u_offset.toNat / 512)).bn ≠ 0) :
    f.turn r u = (some ⟨u.o, smin u.chunk (dpcmp (f.ip.i_size.setWidth 32) u.u_offset),
        IoArgs.pairs (u.u_offset.toNat % 512 : ℕ) u.u_base (f.moves u)⟩,
      (u.setError (f.fetch r (u.u_offset.toNat / 512)).err).advance (f.moves u)) := by
  have hle : f.moves u ≤ (u.setError (f.fetch r (u.u_offset.toNat / 512)).err).u_count.toNat := by
    rw [setError_u_count]
    exact moves_le
  rw [turn_eq hlt, if_neg hbn]
  simp only [IoArgs.iomove]
  rw [smin_toNat h0 hlt, IoArgs.iomoveLoop_eq false _ hle, IoArgs.o_toInt, IoArgs.o_toNat,
    setError_u_base]

/-- The bytes that a turn stores. -/
theorem stored_move (h0 : u.u_count ≠ 0) (hlt : u.u_offset.toNat < f.size)
    (hbn : (f.fetch r (u.u_offset.toNat / 512)).bn ≠ 0) :
    f.stored r u = bytesAt u.u_base (f.moves u)
      fun i => (f.fetch r (u.u_offset.toNat / 512)).b_addr (u.u_offset.toNat % 512 + i) := by
  have hsize := f.size_lt
  obtain ⟨hlbn, -⟩ := IoArgs.lbn_toNat (u := u) (by omega)
  unfold stored
  rw [turn_move h0 hlt hbn, Option.elim_some, Move.stores, IoArgs.pairs_stores, hlbn]

theorem stored_none {u' : IoArgs} (h : f.turn r u = (none, u')) : f.stored r u = [] := by
  unfold stored
  rw [h]
  rfl

/-! ## The loop -/

/-- The loop stops after this turn. -/
theorem readLoop_stop {n : ℕ} (h : XferSys.again (f.turn r u) = false) :
    f.readLoop r (n + 1) u = (f.stored r u, (f.turn r u).2) := by
  unfold readLoop
  simp only [h, Bool.false_eq_true, if_false]

/-- The loop goes on after this turn. -/
theorem readLoop_again {n : ℕ} (h : XferSys.again (f.turn r u) = true) :
    f.readLoop r (n + 1) u =
      (f.stored r u ++ (f.readLoop r n (f.turn r u).2).1, (f.readLoop r n (f.turn r u).2).2) := by
  rw [readLoop]
  simp only [h, if_true]

/-- An error that is set, or one that was there. -/
theorem setError_u_error (err : ℕ) :
    (u.setError err).u_error = 0 ↔ u.u_error = 0 ∧ err = 0 := by
  unfold IoArgs.setError
  split
  · next h => simp [h]
  · next h => simp [h]

/-- What a transfer with a count that is not negative does: `k` bytes go to addresses side by side;
without an error on their way they are the next bytes of the file, as many as there can be. -/
structure Done (f : ExecFile) (r : ExecRead) (u : IoArgs) (res : List Store × IoArgs) (k : ℕ)
    (val : ℕ → Byte) : Prop where
  stores : res.1 = bytesAt u.u_base k val
  u_offset : res.2.u_offset = u.u_offset + BitVec.ofNat 32 k
  le : k ≤ f.available u
  keep : res.2.u_error = 0 → u.u_error = 0
  err : u.u_error = 0 →
    (res.2.u_error = 0 ↔ f.NoErr r u.u_offset.toNat (u.u_offset.toNat + f.available u))
  full : res.2.u_error = 0 → k = f.available u
  bytes : res.2.u_error = 0 → ∀ i < k, val i = f.byte (u.u_offset.toNat + i)

/-- Nothing to move. -/
theorem Done.none (h : f.available u = 0) : Done f r u ([], u) 0 fun _ => 0 where
  stores := rfl
  u_offset := by simp
  le := Nat.zero_le _
  keep := id
  err := by
    intro herr
    refine iff_of_true herr fun pos hlo hhi => ?_
    omega
  full := fun _ => h.symm
  bytes := fun _ i hi => absurd hi (Nat.not_lt_zero i)

/-- The chunk of a turn is free of errors if the block is. -/
theorem noErr_moves {m : ℕ} (hm : m ≤ 512 - u.u_offset.toNat % 512)
    (herr : (f.fetch r (u.u_offset.toNat / 512)).err = 0) :
    f.NoErr r u.u_offset.toNat (u.u_offset.toNat + m) := by
  intro pos hlo hhi
  rw [show pos / 512 = u.u_offset.toNat / 512 from by omega]
  exact herr

/-- Two pieces are read without an error. -/
theorem NoErr.append {a b c : ℕ} (h : f.NoErr r a b) (h' : f.NoErr r b c) : f.NoErr r a c :=
  fun pos hlo hhi => if hb : pos < b then h pos hlo hb else h' pos (by omega) hhi

/-- The bytes of a turn without an error. -/
theorem b_addr_eq {m i : ℕ} (hm : m ≤ 512 - u.u_offset.toNat % 512) (hi : i < m)
    (herr : (f.fetch r (u.u_offset.toNat / 512)).err = 0) :
    (f.fetch r (u.u_offset.toNat / 512)).b_addr (u.u_offset.toNat % 512 + i) =
      f.byte (u.u_offset.toNat + i) := by
  rw [f.delivered _ _ _ herr (by omega)]
  congr 1
  omega

/-- What is left to be read after a part of it. -/
theorem available_advance {m : ℕ} (hm : m ≤ f.available u) (hoff : u.u_offset.toNat < 2 ^ 31) :
    f.available (u.advance m) = f.available u - m := by
  have hle : m ≤ u.u_count.toNat := hm.trans (min_le_left _ _)
  have hsize := f.size_lt
  unfold available at hm ⊢
  rw [IoArgs.advance_count hle, IoArgs.advance_offset (by omega)]
  omega

/-- The bytes from the buffer of the block that the offset is in. -/
def fromBuf (f : ExecFile) (r : ExecRead) (u : IoArgs) : ℕ → Byte :=
  fun i => (f.fetch r (u.u_offset.toNat / 512)).b_addr (u.u_offset.toNat % 512 + i)

/-- A turn that moves something and is the last one, because of an error or of the count. -/
theorem Done.last {m e : ℕ} (he : (f.fetch r (u.u_offset.toNat / 512)).err = e)
    (hblock : m ≤ 512 - u.u_offset.toNat % 512) (hle : m ≤ f.available u) (hpos : 0 < f.available u)
    (hall : (u.setError e).u_error = 0 → m = u.u_count.toNat) :
    Done f r u (bytesAt u.u_base m (f.fromBuf r u), (u.setError e).advance m) m (f.fromBuf r u) := by
  have hav : (u.setError e).u_error = 0 → m = f.available u := by
    intro h
    have hcount := hall h
    unfold available at hle ⊢
    omega
  refine ⟨rfl, ?_, hle, fun h => ((setError_u_error e).mp h).1, fun h => ?_, hav, fun h i hi => ?_⟩
  · show (u.setError e).u_offset + _ = _
    rw [setError_u_offset]
  · constructor
    · intro herr
      rw [← hav herr]
      exact noErr_moves hblock (he.trans ((setError_u_error e).mp herr).2)
    · intro hno
      exact (setError_u_error e).mpr ⟨h, he ▸ hno _ le_rfl (by omega)⟩
  · exact b_addr_eq hblock hi (he.trans ((setError_u_error e).mp h).2)

/-- A turn without an error, and the turns behind it. -/
theorem Done.append {m k : ℕ} {res : List Store × IoArgs} {val : ℕ → Byte}
    (hoff : u.u_offset.toNat < 2 ^ 31) (herr : u.u_error = 0)
    (he : (f.fetch r (u.u_offset.toNat / 512)).err = 0)
    (hblock : m ≤ 512 - u.u_offset.toNat % 512) (hle : m ≤ f.available u)
    (h : Done f r (u.advance m) res k val) :
    Done f r u (bytesAt u.u_base m (f.fromBuf r u) ++ res.1, res.2) (m + k)
      (fun i => if i < m then f.fromBuf r u i else val (i - m)) := by
  -- how far the first turn goes
  have hsize := f.size_lt
  have hleft := available_advance hle hoff
  have hof := IoArgs.advance_offset (u := u) (n := m) (by unfold available at hle; omega)
  have hno := noErr_moves hblock he
  -- the fields of `Done`, for the first turn and the rest together
  refine ⟨?_, ?_, ?_, fun _ => herr, fun _ => ?_, fun hres => ?_, fun hres i hi => ?_⟩
  -- the stores: those of the buffer, then the rest's
  · show _ ++ res.1 = _
    rw [h.stores]
    exact bytesAt_append u.u_base m k _ _
  -- the offsets add up
  · show res.2.u_offset = _
    rw [h.u_offset]
    show u.u_offset + BitVec.ofNat 32 m + _ = _
    rw [BitVec.ofNat_add, BitVec.add_assoc]
  · have hk := h.le
    omega
  · -- the end of what is available is where it was
    have hend : u.u_offset.toNat + f.available u =
        (u.advance m).u_offset.toNat + f.available (u.advance m) := by omega
    rw [hend]
    refine (h.err herr).trans ⟨fun hrest => ?_, fun hall => ?_⟩
    · exact (hof ▸ hno : f.NoErr r _ _).append hrest
    · exact fun pos hlo hhi => hall pos (by omega) hhi
  · have hk := h.full hres
    omega
  -- a byte is of the first turn or of the rest
  · split
    · next him => exact b_addr_eq hblock him he
    · next him =>
      rw [h.bytes hres _ (by omega), hof]
      congr 1
      omega

/-- No block: an error, and the loop is left. -/
theorem Done.missing (hpos : 0 < f.available u)
    (hbn : (f.fetch r (u.u_offset.toNat / 512)).bn = 0) :
    Done f r u ([], u.setError (f.fetch r (u.u_offset.toNat / 512)).err) 0 fun _ => 0 := by
  have herr := f.err_of_missing r _ hbn
  have hset : (u.setError (f.fetch r (u.u_offset.toNat / 512)).err).u_error ≠ 0 :=
    fun h => herr ((setError_u_error _).mp h).2
  refine ⟨rfl, by simp, Nat.zero_le _, fun h => absurd h hset, fun _ => ?_, fun h => absurd h hset,
    fun h => absurd h hset⟩
  exact iff_of_false hset fun hno => herr (hno _ le_rfl (by omega))

/-- The loop reads up to an error, or as much as there is. -/
theorem readLoop_done {n : ℕ} (hcount : 0 < u.u_count.toInt) (hn : u.u_count.toNat ≤ n)
    (hoff : u.u_offset.toNat < 2 ^ 31) : ∃ k val, Done f r u (f.readLoop r n u) k val := by
  induction n generalizing u with
  | zero =>
    have hnat := toNat_of_toInt_nonneg hcount.le
    omega
  | succ n ih =>
    have hnat := toNat_of_toInt_nonneg hcount.le
    have h0 : u.u_count ≠ 0 := by
      rintro h0
      rw [h0] at hcount
      exact absurd hcount (by decide)
    rcases le_or_gt f.size u.u_offset.toNat with hend | hlt
    · have hturn := turn_end (r := r) hoff hend
      rw [readLoop_stop (by rw [hturn]; rfl), stored_none hturn, hturn]
      exact ⟨0, _, Done.none (by unfold available; omega)⟩
    have hpos : 0 < f.available u := by
      unfold available
      omega
    by_cases hbn : (f.fetch r (u.u_offset.toNat / 512)).bn = 0
    · have hturn := turn_missing hlt hbn
      rw [readLoop_stop (by rw [hturn]; rfl), stored_none hturn, hturn]
      exact ⟨0, _, Done.missing hpos hbn⟩
    have hmoves : f.moves u = min (512 - u.u_offset.toNat % 512) (f.available u) := if_pos hcount.le
    have hturn := turn_move h0 hlt hbn
    have hstored : f.stored r u = bytesAt u.u_base (f.moves u) (f.fromBuf r u) :=
      stored_move h0 hlt hbn
    generalize he : (f.fetch r (u.u_offset.toNat / 512)).err = e at hturn
    by_cases hagain : XferSys.again (f.turn r u) = true
    · rw [readLoop_again hagain, hstored]
      rw [hturn] at hagain ⊢
      obtain ⟨-, herr, hmore⟩ := FileDev.again_iff.mp hagain
      obtain ⟨huerr, rfl⟩ := (setError_u_error e).mp herr
      have hset : u.setError 0 = u := if_pos rfl
      rw [hset] at hmore ⊢
      have hlt' : f.moves u < u.u_count.toNat := by
        refine lt_of_le_of_ne moves_le fun hall => hmore ?_
        exact (FileDev.advance_u_count_eq_zero moves_le).mpr hall
      have hcnt := IoArgs.advance_count (u := u) hlt'.le
      have hof := IoArgs.advance_offset (u := u) (n := f.moves u)
        (by unfold available at hpos; have := f.size_lt; omega)
      have hle : f.moves u ≤ f.available u := by omega
      have hsize := f.size_lt
      obtain ⟨k, val, hdone⟩ := ih (FileDev.advance_pos hcount hlt') (by omega)
        (by unfold available at hle; omega)
      exact ⟨_, _, hdone.append hoff huerr he (by omega) hle⟩
    · rw [readLoop_stop (by simpa using hagain), hturn, hstored]
      refine ⟨_, _, Done.last he (by omega) (by omega) hpos fun herr => ?_⟩
      -- Without an error it is the count that has run out.
      by_contra hne
      refine hagain ?_
      rw [hturn]
      refine FileDev.again_iff.mpr ⟨rfl, herr, fun hz => hne ?_⟩
      have hcnt := IoArgs.advance_count (u := u.setError e) (n := f.moves u)
        (by rw [setError_u_count]; exact moves_le)
      have hzero : (0 : BitVec 16).toNat = 0 := rfl
      have hmoves_le := moves_le (f := f) (u := u)
      rw [hz, setError_u_count] at hcnt
      omega

/-- `readi` with a count that is not negative. -/
theorem readi_done (hcount : 0 ≤ u.u_count.toInt) (hoff : u.u_offset.toNat < 2 ^ 31) :
    ∃ k val, Done f r u (f.readi r u) k val := by
  unfold readi
  split
  · next h0 => exact ⟨0, _, Done.none (by unfold available; rw [h0]; exact Nat.zero_min _)⟩
  · next h0 =>
    have hne : u.u_count.toInt ≠ 0 := fun h => h0 (BitVec.eq_of_toInt_eq h)
    exact readLoop_done (by omega) le_rfl hoff

/-! ### The blocks that are asked for -/

/-- At the end of the file `readi` does nothing. -/
theorem readi_end (hoff : u.u_offset.toNat < 2 ^ 31) (hend : f.size ≤ u.u_offset.toNat) :
    f.readi r u = ([], u) := by
  unfold readi
  split
  · rfl
  · next h0 =>
    obtain ⟨n, hn⟩ := Nat.exists_eq_succ_of_ne_zero (n := u.u_count.toNat)
      fun h => h0 (BitVec.eq_of_toNat_eq h)
    have hturn := turn_end (r := r) hoff hend
    rw [hn, Nat.succ_eq_add_one, readLoop_stop (by rw [hturn]; rfl), stored_none hturn, hturn]

/-- A negative count inside the file: one turn, and all that the count says comes from one buffer. -/
theorem readi_neg (hneg : u.u_count.toInt < 0) (hlt : u.u_offset.toNat < f.size) :
    f.readi r u =
      if (f.fetch r (u.u_offset.toNat / 512)).bn = 0 then
        ([], u.setError (f.fetch r (u.u_offset.toNat / 512)).err)
      else
        (bytesAt u.u_base u.u_count.toNat (f.fromBuf r u),
          (u.setError (f.fetch r (u.u_offset.toNat / 512)).err).advance u.u_count.toNat) := by
  have h0 : u.u_count ≠ 0 := by
    rintro h0
    rw [h0] at hneg
    exact absurd hneg (by decide)
  obtain ⟨n, hn⟩ := Nat.exists_eq_succ_of_ne_zero (n := u.u_count.toNat)
    fun h => h0 (BitVec.eq_of_toNat_eq h)
  have hloop : f.readi r u = f.readLoop r (n + 1) u := by
    unfold readi
    rw [if_neg h0, hn]
  rw [hloop]
  split
  · next hbn =>
    have hturn := turn_missing hlt hbn
    rw [readLoop_stop (by rw [hturn]; rfl), stored_none hturn, hturn]
  · next hbn =>
    -- a negative count is less than what the block has left
    have hmoves : f.moves u = u.u_count.toNat := if_neg (not_le.mpr hneg)
    have hturn := turn_move h0 hlt hbn
    have hstored := stored_move h0 hlt hbn
    rw [hmoves] at hturn hstored
    -- and then the count is zero: no second turn
    have hagain : XferSys.again (f.turn r u) = false := by
      rw [hturn]
      refine Bool.eq_false_iff.mpr fun h => (FileDev.again_iff.mp h).2.2 ?_
      refine (FileDev.advance_u_count_eq_zero ?_).mpr ?_
      · rw [setError_u_count]
      · rw [setError_u_count]
    rw [readLoop_stop hagain, hturn, hstored]
    rfl

end ExecFile

/-! ## The header -/

/-- The header that was read. -/
theorem storeHdr_bytesAt {u_hdr : ℕ → Byte} {k i : ℕ} {val : ℕ → Byte} (hk : k ≤ 65536) :
    storeHdr u_hdr (bytesAt 0 k val) i = if i < k then val i else u_hdr i := by
  unfold storeHdr bytesAt
  induction k with
  | zero => rfl
  | succ k ih =>
    have hnat : (0 + BitVec.ofNat 16 k : BitVec 16).toNat = k := by bv_omega
    rw [List.range_succ, List.map_append, List.foldl_append, List.map_singleton, List.foldl_cons,
      List.foldl_nil]
    dsimp only
    rw [hnat]
    rcases eq_or_ne i k with rfl | hne
    · rw [update_self, if_pos (Nat.lt_succ_self i)]
    · rw [update_of_ne hne, ih (by omega)]
      have hiff : i < k ↔ i < k + 1 := by omega
      simp only [hiff]

/-- The words of a header depend on its bytes. -/
theorem hdrWord_congr {h h' : ℕ → Byte} {i : ℕ} (heq : ∀ j < 32, h j = h' j) (hi : i < 16) :
    hdrWord h i = hdrWord h' i := by
  unfold hdrWord
  rw [heq _ (by omega), heq _ (by omega)]

/-- The transfer of the header: an error, or the first bytes of the file. -/
theorem readHeader_cases (f : ExecFile) :
    ((readHeader f 0).2.u_error ≠ 0 ∧ ¬ f.NoErr .header 0 (min 32 f.size)) ∨
    ((readHeader f 0).2.u_error = 0 ∧ f.NoErr .header 0 (min 32 f.size) ∧
      (readHeader f 0).1 = bytesAt 0 (min 32 f.size) f.byte ∧
      (readHeader f 0).2.u_offset.toNat = min 32 f.size) := by
  obtain ⟨k, val, hdone⟩ := f.readi_done (r := .header)
    (u := { u_base := 0, u_count := 32, u_offset := 0, u_error := 0 }) (by decide) (by decide)
  have hav : f.available { u_base := 0, u_count := 32, u_offset := 0, u_error := 0 } =
      min 32 f.size := rfl
  have herr := hdone.err rfl
  rw [hav] at herr
  have hzero : (0 : BitVec 32).toNat = 0 := rfl
  simp only [hzero, Nat.zero_add] at herr
  unfold readHeader
  by_cases h : (f.readi .header { u_base := 0, u_count := 32, u_offset := 0, u_error := 0 }).2.u_error = 0
  · have hk : k = min 32 f.size := (hdone.full h).trans hav
    have hval : ∀ i < k, val i = f.byte i := by
      intro i hi
      rw [hdone.bytes h i hi, hzero, Nat.zero_add]
    refine .inr ⟨h, herr.mp h, ?_, ?_⟩
    · rw [← hk]
      refine hdone.stores.trans (List.map_congr_left fun i hi => ?_)
      rw [hval i (List.mem_range.mp hi)]
    · rw [hdone.u_offset, hk]
      bv_omega
  · exact .inl ⟨h, fun hno => h (herr.mpr hno)⟩

end UnixV6
