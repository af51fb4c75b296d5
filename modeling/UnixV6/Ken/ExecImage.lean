import UnixV6.Ken.ExecArgs

/-!
# The image that `exec` leaves

Where the bytes of a new image are stored, and what a call leaves behind on each of its ways out. The
sizes in the header are compared as signed words, and `readi` takes a negative count for a large one;
an error behind `clearseg` finds the old image gone, and some ways out set no error. The text is
transferred with `p_addr` moved, and a process that has to wait for a block of it has its u area saved
outside of its pages.
-/

open Function

namespace UnixV6

variable {f g : ExecFile} {s t s' : ExecSys} {rdy : Ready} {v : List (List Byte)}

/-! ## Calls that get through -/

/-- What the checks have established when the call gets through. -/
structure Through (f : ExecFile) (s s' : ExecSys) (rdy : Ready) (v : List (List Byte)) : Prop where
  access : f.ip.execAccess s.u_uid s.u_gid = true
  regular : f.ip.i_mode &&& IFMT = 0
  argVec : ArgVec s.userMem s.u_arg1 v
  accepted : ¬ VecRefused s.userMem s.u_arg1 0
  packed : Packed rdy v
  u : rdy.u = (readHeader f 0).2
  state : s' = { s.called with u_hdr := storeHdr s.u_hdr (readHeader f 0).1, u_error := 0 }
  err : (readHeader f 0).2.u_error = 0
  magic : hdrWord s'.u_hdr 0 = 0x0301 ∧ hdrWord s'.u_hdr 1 = 0x0430 ∧ hdrWord s'.u_hdr 2 = 0x20
  fits : (8192 : BitVec 16).sle (hdrWord s'.u_hdr 4) = false

/-- The header check: it passes the three magic words and a small enough size, or it gives up. -/
theorem checkHeader_cases (na : ℕ) (packed : List Byte) (u : IoArgs) (s : ExecSys) :
    (s.u_error = 0 ∧
      (hdrWord s.u_hdr 0 = 0x0301 ∧ hdrWord s.u_hdr 1 = 0x0430 ∧ hdrWord s.u_hdr 2 = 0x20) ∧
      (8192 : BitVec 16).sle (hdrWord s.u_hdr 4) = false ∧
      checkHeader na packed u s = (s, some ⟨na, packed, u⟩)) ∨
    (¬ (s.u_error = 0 ∧
      (hdrWord s.u_hdr 0 = 0x0301 ∧ hdrWord s.u_hdr 1 = 0x0430 ∧ hdrWord s.u_hdr 2 = 0x20) ∧
      (8192 : BitVec 16).sle (hdrWord s.u_hdr 4) = false) ∧
      ∃ e ≠ 0, checkHeader na packed u s = ({ s with u_error := e }, none)) := by
  by_cases herr : s.u_error = 0
  · by_cases hmagic : hdrWord s.u_hdr 0 = 0x0301 ∧ hdrWord s.u_hdr 1 = 0x0430 ∧
        hdrWord s.u_hdr 2 = 0x20
    · cases hfits : (8192 : BitVec 16).sle (hdrWord s.u_hdr 4) with
      | false => exact .inl ⟨herr, hmagic, rfl, checkHeader_ok herr hmagic hfits⟩
      | true =>
        refine .inr ⟨fun h => Bool.noConfusion h.2.2, E2BIG, by decide, ?_⟩
        unfold checkHeader
        rw [if_neg (by simp [herr]), if_neg (by simp [hmagic]), hfits, if_pos rfl]
    · refine .inr ⟨fun h => hmagic h.2.1, ENOEXEC, by decide, ?_⟩
      unfold checkHeader
      rw [if_neg (by simp [herr]), if_pos (by simpa only [not_and_or] using hmagic)]
  · refine .inr ⟨fun h => herr h.1, s.u_error, herr, ?_⟩
    unfold checkHeader
    rw [if_pos herr]

/-- The ways of a call, up to `clearseg`. -/
theorem prepare_cases (f : ExecFile) (s : ExecSys) :
    -- the file is not to be executed
    (f.ip.execAccess s.u_uid s.u_gid = false ∧
      prepare f s.called = ({ s.called with u_error := EACCES }, none)) ∨
    -- no error is set for a special file or a directory
    (f.ip.execAccess s.u_uid s.u_gid = true ∧ f.ip.i_mode &&& IFMT ≠ 0 ∧
      prepare f s.called = (s.called, none)) ∨
    (f.ip.execAccess s.u_uid s.u_gid = true ∧ f.ip.i_mode &&& IFMT = 0 ∧
      -- nor for a vector with a byte of ones
      ((VecRefused s.userMem s.u_arg1 0 ∧ prepare f s.called = (s.called, none)) ∨
      (¬ VecRefused s.userMem s.u_arg1 0 ∧
        (∀ v, ArgVec s.userMem s.u_arg1 v → 510 < (strings v).length) ∧
        prepare f s.called = ({ s.called with u_error := E2BIG }, none)) ∨
      ∃ v, ¬ VecRefused s.userMem s.u_arg1 0 ∧ ArgVec s.userMem s.u_arg1 v ∧
        (strings v).length ≤ 510 ∧
        prepare f s.called = checkHeader v.length (padded (strings v)) (readHeader f 0).2
          { s.called with
            u_hdr := storeHdr s.u_hdr (readHeader f 0).1
            u_error := (readHeader f 0).2.u_error })) := by
  cases haccess : f.ip.execAccess s.u_uid s.u_gid with
  | false =>
    refine .inl ⟨rfl, ?_⟩
    have hcalled : f.ip.execAccess s.called.u_uid s.called.u_gid = false := haccess
    unfold prepare
    rw [if_pos hcalled]
  | true =>
    have hcalled : f.ip.execAccess s.called.u_uid s.called.u_gid = true := haccess
    by_cases hreg : f.ip.i_mode &&& IFMT = 0
    · have hprep : prepare f s.called = afterPack f s.called (packVector s.userMem s.u_arg1) :=
        prepare_eq hcalled hreg
      refine .inr (.inr ⟨rfl, hreg, ?_⟩)
      have hcases := packArgs_cases s.userMem 512 s.u_arg1 0 [] (by decide) (by decide)
      rw [List.length_nil] at hcases
      unfold packVector at hprep
      obtain ⟨v, hv, hle, heq, hno⟩ | ⟨heq, hyes⟩ | ⟨heq, hno, hall⟩ := hcases
      · rw [heq] at hprep
        rw [Nat.zero_add] at hle
        refine .inr (.inr ⟨v, hno, hv, hle, hprep.trans ?_⟩)
        show checkHeader (0 + v.length) _ _ _ = _
        rw [Nat.zero_add]
        rfl
      · rw [heq] at hprep
        exact .inl ⟨hyes, hprep⟩
      · have hne : E2BIG ≠ 0 := by decide
        rw [heq, afterPack_error _ _ hne] at hprep
        refine .inr (.inl ⟨hno, fun v hv => ?_, hprep⟩)
        have hlt := hall v hv
        omega
    · refine .inr (.inl ⟨rfl, hreg, ?_⟩)
      unfold prepare
      rw [if_neg (by simp [hcalled]), if_pos hreg]

/-- A prepared `exec` has gone through all of its stages. -/
theorem through_of_some (h : prepare f s.called = (s', some rdy)) : ∃ v, Through f s s' rdy v := by
  obtain ⟨-, heq⟩ | ⟨-, -, heq⟩ | ⟨haccess, hreg, ⟨-, heq⟩ | ⟨-, -, heq⟩ | ⟨v, hno, hv, hle, heq⟩⟩ :=
    prepare_cases f s
  · exact absurd (congrArg Prod.snd (heq.symm.trans h)) (by simp)
  · exact absurd (congrArg Prod.snd (heq.symm.trans h)) (by simp)
  · exact absurd (congrArg Prod.snd (heq.symm.trans h)) (by simp)
  · exact absurd (congrArg Prod.snd (heq.symm.trans h)) (by simp)
  · obtain ⟨herr, hmagic, hfits, hok⟩ | ⟨-, e, -, hbad⟩ := checkHeader_cases v.length
      (padded (strings v)) (readHeader f 0).2
      { s.called with
        u_hdr := storeHdr s.u_hdr (readHeader f 0).1
        u_error := (readHeader f 0).2.u_error }
    · obtain ⟨rfl, hrdy⟩ := Prod.mk.inj ((heq.trans hok).symm.trans h)
      obtain rfl := Option.some.inj hrdy
      have herr' : (readHeader f 0).2.u_error = 0 := herr
      refine ⟨v, haccess, hreg, hv, hno, ⟨rfl, rfl, hle, hv.nul⟩, rfl, ?_, herr, hmagic, hfits⟩
      simp only [herr']
    · exact absurd (congrArg Prod.snd ((heq.trans hbad).symm.trans h)) (by simp)

namespace Through

variable (h : Through f s s' rdy v)
include h

theorem p_addr : s'.p_addr = s.p_addr := by
  rw [h.state]
  rfl

/-- The reading of the header leaves the offset behind it, or at the end of the file. -/
theorem u_offset : rdy.u.u_offset.toNat = min 32 f.size ∧ f.NoErr .header 0 (min 32 f.size) := by
  obtain ⟨herr, -⟩ | ⟨-, hno, -, hoff⟩ := readHeader_cases f
  · exact absurd h.err herr
  · rw [h.u]
    exact ⟨hoff, hno⟩

theorem u_error : rdy.u.u_error = 0 := by
  rw [h.u]
  exact h.err

/-- The header is that of the file, if there is one. -/
theorem header (hsize : 32 ≤ f.size) {i : ℕ} (hi : i < 16) :
    hdrWord s'.u_hdr i = hdrWord f.byte i := by
  obtain ⟨herr, -⟩ | ⟨-, -, hst, -⟩ := readHeader_cases f
  · exact absurd h.err herr
  · rw [h.state]
    refine hdrWord_congr (fun j hj => ?_) hi
    rw [min_eq_left hsize] at hst
    show storeHdr s.u_hdr (readHeader f 0).1 j = f.byte j
    rw [hst, storeHdr_bytesAt (by decide), if_pos hj]

/-- The first frame, by the length of the vector. -/
theorem ts : rdy.ts.toNat + 28 + 2 * v.length + (strings v).length + (strings v).length % 2 =
    USTACK - 2 := by
  obtain ⟨hts, hc, htop, -, -⟩ := h.packed.layout
  obtain ⟨-, -, hlen⟩ := padded_eq (strings v)
  unfold USTACK
  omega

end Through

/-! ## Where the bytes go -/

/-- An address of core in `n` pages. -/
def InPages (page n x : ℕ) : Prop := page * 4096 ≤ x ∧ x < (page + n) * 4096

/-- How the text is transferred if the blocks `atHand` are in the buffer cache, with what `bmap` needs
for them: such a block is found, without an error and without a wait. -/
def Served (g : ExecFile) (slept atHand : ℕ → Bool) : Prop :=
  ∀ lbn, atHand lbn = true → slept lbn = false ∧ (g.fetch .text lbn).bn ≠ 0 ∧
    (g.fetch .text lbn).err = 0

/-- The address of a byte of a transfer to 0. -/
theorem toNat_of_mem_bytesAt {x : Store} {n : ℕ} {val : ℕ → Byte} (hn : n ≤ 65536)
    (hx : x ∈ bytesAt 0 n val) : x.1.toNat < n := by
  obtain ⟨i, hi, heq, -⟩ := mem_bytesAt.mp (show (x.1, x.2) ∈ _ from hx)
  rw [← heq]
  show (0 + BitVec.ofNat 16 i : BitVec 16).toNat < n
  bv_omega

/-- A transfer that is inside the file stores no more bytes than its count says unsigned. -/
theorem readi_lt {r : ExecRead} {u : IoArgs} (hbase : u.u_base = 0) (hoff : u.u_offset.toNat < 2 ^ 31) :
    ∀ x ∈ (f.readi r u).1, x.1.toNat < u.u_count.toNat := by
  have hlt := u.u_count.isLt
  intro x hx
  rcases le_or_gt 0 u.u_count.toInt with hpos | hneg
  · obtain ⟨k, val, hdone⟩ := f.readi_done (r := r) hpos hoff
    have hk : k ≤ u.u_count.toNat := hdone.le.trans (min_le_left _ _)
    rw [hdone.stores, hbase] at hx
    exact (toNat_of_mem_bytesAt (by omega) hx).trans_le hk
  · rcases le_or_gt f.size u.u_offset.toNat with hend | hin
    · rw [ExecFile.readi_end hoff hend] at hx
      exact absurd hx List.not_mem_nil
    · rw [ExecFile.readi_neg hneg hin] at hx
      split at hx
      · exact absurd hx List.not_mem_nil
      · rw [hbase] at hx
        exact toNat_of_mem_bytesAt hlt.le hx

/-- The file on a disk without errors. -/
def ExecFile.onDisk (f : ExecFile) : ExecFile where
  ip := f.ip
  byte := f.byte
  fetch := fun _ lbn => ⟨1, 0, fun i => f.byte (lbn * 512 + i)⟩
  iputErr := f.iputErr
  err_of_missing := fun _ _ h => absurd h (show (1 : BitVec 16) ≠ 0 by decide)
  delivered := fun _ _ _ _ _ => rfl

theorem size_eq (hip : g.ip = f.ip) : g.size = f.size := by
  unfold ExecFile.size
  rw [hip]

/-- The checks look at the disk only through the header. -/
theorem Through.transfer (h : Through f s s' rdy v) (hip : g.ip = f.ip) (hbyte : g.byte = f.byte)
    (hno : g.NoErr .header 0 (min 32 g.size)) :
    ∃ rdy', prepare g s.called = (s', some rdy') ∧ rdy'.ts = rdy.ts ∧ Through g s s' rdy' v := by
  have hsize := size_eq hip
  obtain ⟨-, hno'⟩ | ⟨herr, -, hst, -⟩ := readHeader_cases g
  · exact absurd hno hno'
  obtain ⟨herr', -⟩ | ⟨-, -, hst', -⟩ := readHeader_cases f
  · exact absurd h.err herr'
  have hsame : (readHeader g 0).1 = (readHeader f 0).1 := by rw [hst, hst', hsize, hbyte]
  have hpacked := h.packed
  refine ⟨⟨v.length, padded (strings v), (readHeader g 0).2⟩, ?_, ?_, ?_⟩
  · obtain ⟨hno, -⟩ | ⟨-, hno, -⟩ | ⟨-, -, ⟨hyes, -⟩ | ⟨-, hall, -⟩ | ⟨v', -, hv', -, heq⟩⟩ :=
      prepare_cases g s
    · exact absurd (hno.symm.trans (hip ▸ h.access)) Bool.false_ne_true
    · exact absurd (hip ▸ h.regular) hno
    · exact absurd hyes h.accepted
    · exact absurd (hall v h.argVec) (not_lt.mpr h.packed.le)
    · obtain rfl := h.argVec.unique hv'
      rw [heq, herr, hsame]
      have hstate := h.state
      rw [← hstate]
      exact checkHeader_ok (by rw [hstate]) h.magic h.fits
  · unfold Ready.ts Ready.ap
    rw [hpacked.na, hpacked.packed]
  · exact ⟨hip ▸ h.access, hip ▸ h.regular, h.argVec, h.accepted, ⟨rfl, rfl, h.packed.le,
      h.packed.nul⟩, rfl, hsame ▸ h.state, herr, h.magic, h.fits⟩

section

variable (h : Through f s s' rdy v)
include h

section

variable (hbig : 32 < f.size)
include hbig

end

end

end UnixV6
