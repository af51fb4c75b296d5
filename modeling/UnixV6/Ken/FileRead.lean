import UnixV6.Ken.FileBytes

/-!
# Reading a file that has all its blocks

`bmap` finds every block of such a file, and allocates none. Calls of `readi`, each from where the
last one has come to, deliver the bytes of the file in their order.
-/

open Function

namespace UnixV6.FileDev

variable {s : FileDev} {u : IoArgs} {byte : ℕ → BitVec 8}

/-- Every byte of the file is in a block that `bmap` finds. -/
def Whole (s : FileDev) (byte : ℕ → BitVec 8) : Prop :=
  ∀ pos < s.i_size.toNat, ∃ bn ≠ 0, s.bmap (pos / 512) = (bn, s) ∧
    s.disk bn (pos % 512) = byte pos

theorem Whole.readInv (h : s.Whole byte) : ReadInv (fun _ s' => s' = s) s.i_size byte := by
  constructor
  · rintro k s' rfl
    rfl
  · rintro k s' u mem rfl hcount hoff
    have hsize := s'.i_size.isLt
    obtain ⟨hlbn, hmsb⟩ := IoArgs.lbn_toNat (u := u) (by omega)
    obtain ⟨bn, hne, hbmap, -⟩ := h _ hoff
    have henv : s'.env u = (⟨bn, 0, fun _ => false⟩, s') := by
      unfold FileDev.env
      rw [if_neg (by simp [hmsb]), hlbn, hbmap]
      dsimp only
      rw [if_neg hne]
    have hbyte : ∀ i < s'.readable u,
        s'.disk bn (u.u_offset.toNat % 512 + i) = byte (u.u_offset.toNat + i) := by
      intro i hi
      have hread : s'.readable u ≤ s'.i_size.toNat - u.u_offset.toNat := min_le_right _ _
      have hturn : s'.readable u ≤ turn u := min_le_left _ _
      have hblock : turn u ≤ 512 - u.u_offset.toNat % 512 := min_le_left _ _
      obtain ⟨bn', -, hbmap', hdisk⟩ := h (u.u_offset.toNat + i) (by omega)
      -- the byte is in the same block
      have hdiv : (u.u_offset.toNat + i) / 512 = u.u_offset.toNat / 512 := by omega
      have hmod : (u.u_offset.toNat + i) % 512 = u.u_offset.toNat % 512 + i := by omega
      rw [hdiv, hbmap] at hbmap'
      rw [hmod, ← (Prod.mk.inj hbmap').1] at hdisk
      exact hdisk
    obtain ⟨mv, heq⟩ := readTurn_of_env henv hne rfl hbyte mem hcount hoff
    exact ⟨mv, s', heq, rfl⟩

theorem Whole.readi (h : s.Whole byte) (mem : Mem) (herr : u.u_error = 0)
    (hcount : 0 ≤ u.u_count.toInt) (hoff : u.u_offset.toNat < 2 ^ 31) :
    s.readi mem u = (s, delivered mem u.u_base byte u.u_offset.toNat (s.available u),
      u.advance (s.available u)) := by
  unfold FileDev.readi
  split
  · next hzero =>
    have hnone : s.available u = 0 := by
      unfold available
      rw [hzero]
      exact Nat.zero_min _
    rw [hnone, IoArgs.advance_zero]
    rfl
  · next hne =>
    obtain ⟨s', k, hloop, rfl⟩ :=
      h.readInv.readLoop mem rfl herr (toInt_pos_of_ne hcount hne) le_rfl hoff
    exact hloop

/-- What has been delivered, one byte after another. -/
theorem map_delivered (mem : Mem) (base : BitVec 16) (byte : ℕ → BitVec 8) (off : ℕ) {n : ℕ}
    (hn : n ≤ 65536) : (List.range n).map (fun i => delivered mem base byte off n
      (base + BitVec.ofNat 16 i)) = (List.range' off n).map byte := by
  rw [List.range'_eq_map_range, List.map_map]
  refine List.map_congr_left fun i hi => ?_
  have hi := List.mem_range.mp hi
  have hsub : (base + BitVec.ofNat 16 i - base).toNat = i := by bv_omega
  unfold delivered
  rw [hsub, if_pos hi]
  rfl

/-- The bytes that calls of `readi` deliver, one after the other from an offset on; each has its own
address and its own count. -/
def reads : FileDev → Mem → List (BitVec 16 × BitVec 16) → BitVec 32 → List (BitVec 8)
  | _, _, [], _ => []
  | s, mem, (base, count) :: calls, offset =>
    let r := s.readi mem ⟨base, count, offset, 0⟩
    let n := (count - r.2.2.u_count).toNat
    (List.range n).map (fun i => r.2.1 (base + BitVec.ofNat 16 i)) ++
      reads r.1 r.2.1 calls r.2.2.u_offset

/-- One after the other they deliver the bytes up to the end of the file. -/
theorem Whole.reads (h : s.Whole byte) (mem : Mem) {calls : List (BitVec 16 × BitVec 16)}
    (hcalls : ∀ c ∈ calls, 0 ≤ c.2.toInt) {offset : BitVec 32}
    (hoff : offset.toNat ≤ s.i_size.toNat) :
    s.reads mem calls offset = (List.range' offset.toNat
      (min (calls.map (·.2.toNat)).sum (s.i_size.toNat - offset.toNat))).map byte := by
  induction calls generalizing mem offset with
  | nil =>
    rw [List.map_nil, List.sum_nil, Nat.zero_min]
    rfl
  | cons c calls ih =>
    obtain ⟨base, count⟩ := c
    have hsize := s.i_size.isLt
    have hcount : 0 ≤ count.toInt := hcalls _ List.mem_cons_self
    have hread := h.readi mem (u := ⟨base, count, offset, 0⟩) rfl hcount (by dsimp only; omega)
    obtain ⟨n, hn⟩ : ∃ n, s.available ⟨base, count, offset, 0⟩ = n := ⟨_, rfl⟩
    have havail : n = min count.toNat (s.i_size.toNat - offset.toNat) := hn.symm
    have hlt := count.isLt
    -- what `u_count` went down by is what was delivered
    have hmoved : (count - (count - BitVec.ofNat 16 n)).toNat = n := by bv_omega
    have hnext : (offset + BitVec.ofNat 32 n).toNat = offset.toNat + n := by
      rw [BitVec.toNat_add, BitVec.toNat_ofNat]
      omega
    -- the bytes in memory are those of the file, one after another
    have hbytes := map_delivered mem base byte offset.toNat (n := n) (by omega)
    unfold FileDev.reads
    rw [hread, hn]
    dsimp only [IoArgs.advance]
    rw [hmoved, hbytes, ih _ (fun c hc => hcalls c (List.mem_cons_of_mem _ hc)) (by omega), hnext,
      ← List.map_append, List.range'_append_1]
    congr 2
    rw [List.map_cons, List.sum_cons]
    dsimp only
    omega

end UnixV6.FileDev
