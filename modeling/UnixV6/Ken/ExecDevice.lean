import UnixV6.Ken.ExecArgs
import UnixV6.Ken.FileRead

/-!
# The files that `exec` reads

`exec` reads its file with the same `readi` as any program, but the model of `exec` also has disks
that fail, and what a transfer runs into behind a buffer. A file of a device is such a file; with
all its blocks there, `readi` stores the same bytes in both.
-/

open Function

namespace UnixV6.ExecFile

variable {s : FileDev} {ip : Dinode} {r : ExecRead} {u : IoArgs} {byte : ℕ → Byte}

/-- The file of a device that works, with the inode `ip`. -/
def ofDevice (s : FileDev) (ip : Dinode) : ExecFile where
  ip := ip
  byte pos := s.disk (s.bmap (pos / 512)).1 (pos % 512)
  fetch _ lbn := ⟨(s.bmap lbn).1, if (s.bmap lbn).1 = 0 then ENOSPC else 0, s.disk (s.bmap lbn).1⟩
  iputErr := 0
  err_of_missing _ lbn hmissing := by
    dsimp only at hmissing ⊢
    rw [if_pos hmissing]
    decide
  delivered _ lbn i _ hi := by
    dsimp only
    have hdiv : (lbn * 512 + i) / 512 = lbn := by omega
    have hmod : (lbn * 512 + i) % 512 = i := by omega
    rw [hdiv, hmod]

/-- The bytes are those of the file. -/
theorem byte_ofDevice (h : s.Whole byte) {pos : ℕ} (hpos : pos < s.i_size.toNat) :
    (ofDevice s ip).byte pos = byte pos := by
  obtain ⟨bn, -, hbmap, hbyte⟩ := h pos hpos
  rw [← hbyte]
  exact congrArg (fun x => s.disk x.1 (pos % 512)) hbmap

/-- A turn of the loop of `readi`. -/
theorem turn_ofDevice (h : s.Whole byte) (hsize : s.i_size = ip.i_size)
    (hoff : u.u_offset.toNat < 2 ^ 31) (mem : Mem) :
    s.readTurn mem u =
      ((ofDevice s ip).turn r u, s, storeMem ((ofDevice s ip).stored r u) mem) := by
  have hi_size : (ofDevice s ip).size = s.i_size.toNat := by rw [hsize]; rfl
  by_cases hend : s.i_size.toNat ≤ u.u_offset.toNat
  -- at the end of the file
  · have hturn := turn_end (f := ofDevice s ip) (r := r) hoff (hi_size.trans_le hend)
    rw [stored_none hturn, hturn]
    exact FileDev.readTurn_end mem hoff hend
  · have hlt := s.i_size.isLt
    obtain ⟨hlbn, hmsb⟩ := IoArgs.lbn_toNat (u := u) (by omega)
    obtain ⟨bn, hne, hbmap, -⟩ := h u.u_offset.toNat (by omega)
    have hgo : ¬ (dpcmp (s.i_size.setWidth 32) u.u_offset).sle 0 := by
      intro hsle
      have hcmp := IoArgs.dpcmp_size s.i_size (u := u) hoff
      have hle : (dpcmp (s.i_size.setWidth 32) u.u_offset).toInt ≤ 0 :=
        BitVec.sle_iff_toInt_le.mp hsle
      omega
    have hfetch : (ofDevice s ip).fetch r u.lbn.toNat = ⟨bn, 0, s.disk bn⟩ := by
      unfold ofDevice
      dsimp only
      rw [hlbn, hbmap, if_neg hne]
    have henv : s.env u = (⟨bn, 0, fun _ => false⟩, s) := by
      unfold FileDev.env
      rw [if_neg (by simp [hmsb]), hlbn, hbmap]
      dsimp only
      rw [if_neg hne]
    have hturn : (ofDevice s ip).turn r u =
        u.readi .file s.i_size ⟨bn, 0, fun _ => false⟩ := by
      unfold turn
      rw [hfetch, hsize]
      rfl
    unfold FileDev.readTurn stored
    rw [if_neg hgo, henv, hturn, hfetch]
    dsimp only
    generalize u.readi .file s.i_size ⟨bn, 0, fun _ => false⟩ = t
    obtain ⟨mv, u'⟩ := t
    cases mv with
    | none => rfl
    | some mv =>
      dsimp only
      unfold Move.load storeMem Move.stores
      rw [Option.elim_some, List.foldl_map]

/-- The loop of `readi`. -/
theorem readLoop_ofDevice (h : s.Whole byte) (hsize : s.i_size = ip.i_size) {n : ℕ}
    (hoff : u.u_offset.toNat < 2 ^ 31) (hne : u.u_count ≠ 0) (mem : Mem) :
    s.readLoop n mem u = (s, storeMem ((ofDevice s ip).readLoop r n u).1 mem,
      ((ofDevice s ip).readLoop r n u).2) := by
  induction n generalizing u mem with
  | zero => rfl
  | succ n ih =>
    unfold FileDev.readLoop
    rw [turn_ofDevice (r := r) h hsize hoff mem]
    dsimp only
    by_cases hagain : XferSys.again ((ofDevice s ip).turn r u) = true
    · rw [if_pos hagain, readLoop_again hagain, storeMem_append]
      obtain ⟨hmoved, -, hmore⟩ : ((ofDevice s ip).turn r u).1.isSome = true ∧
          ((ofDevice s ip).turn r u).2.u_error = 0 ∧
          ((ofDevice s ip).turn r u).2.u_count ≠ 0 := FileDev.again_iff.mp hagain
      -- what has moved lies in the file, so the offset is still small
      have hlt : u.u_offset.toNat < (ofDevice s ip).size := by
        by_contra hend
        rw [turn_end hoff (not_lt.mp hend)] at hmoved
        cases hmoved
      have hsmall := (ofDevice s ip).size_lt
      obtain ⟨bn, hbn, hbmap, -⟩ := h u.u_offset.toNat (by rw [hsize]; exact hlt)
      have hfound : ((ofDevice s ip).fetch r (u.u_offset.toNat / 512)).bn ≠ 0 := by
        unfold ofDevice
        dsimp only
        rw [hbmap]
        exact hbn
      have hoff' : ((ofDevice s ip).turn r u).2.u_offset.toNat < 2 ^ 31 := by
        have hmoves := (ofDevice s ip).moves_le (u := u)
        have hcount := u.u_count.isLt
        rw [turn_move hne hlt hfound]
        dsimp only
        rw [IoArgs.advance_offset] <;> rw [setError_u_offset] <;> omega
      exact ih hoff' hmore _
    · rw [if_neg hagain, readLoop_stop (Bool.eq_false_iff.mpr hagain)]

/-- `exec` reads a file of a device as any other program does: the bytes that are stored, the errors
and what is left of the arguments are the same, for every count and every offset that is not
negative. -/
theorem readi_ofDevice (h : s.Whole byte) (hsize : s.i_size = ip.i_size)
    (hoff : u.u_offset.toNat < 2 ^ 31) (mem : Mem) :
    s.readi mem u = (s, storeMem ((ofDevice s ip).readi r u).1 mem,
        ((ofDevice s ip).readi r u).2) ∧
      ∀ pos < s.i_size.toNat, (ofDevice s ip).byte pos = byte pos := by
  refine ⟨?_, fun pos hpos => byte_ofDevice h hpos⟩
  unfold FileDev.readi readi
  split
  · rfl
  · next hne => exact readLoop_ofDevice h hsize hoff hne mem

/-- A file of 600 bytes in the blocks 5 and 6. -/
def sixHundred : FileDev where
  ilarg := false
  i_addr k := if k = 0 then 5 else if k = 1 then 6 else 0
  i_size := 600
  disk b i := BitVec.ofNat 8 (b.toNat + i)
  free := []

/-- The transfer of the text, from the second block on. -/
theorem readi_ofDevice_sixHundred : ∃ byte : ℕ → Byte, sixHundred.readi (fun _ => 0) ⟨0x100, 80, 520, 0⟩ =
      (sixHundred, storeMem ((ofDevice sixHundred { i_size1 := 600 }).readi .text
        ⟨0x100, 80, 520, 0⟩).1 fun _ => 0,
        ((ofDevice sixHundred { i_size1 := 600 }).readi .text ⟨0x100, 80, 520, 0⟩).2) ∧
    (∀ pos < 600, (ofDevice sixHundred { i_size1 := 600 }).byte pos = byte pos) ∧
    byte 520 = 14 := by
  refine ⟨fun pos => BitVec.ofNat 8 (if pos < 512 then 5 + pos else 6 + (pos - 512)), ?_⟩
  have hwhole : sixHundred.Whole fun pos =>
      BitVec.ofNat 8 (if pos < 512 then 5 + pos else 6 + (pos - 512)) := by
    intro pos hpos
    have hpos : pos < 600 := hpos
    by_cases hfirst : pos < 512
    · refine ⟨5, by decide, ?_, ?_⟩
      · rw [Nat.div_eq_of_lt hfirst]
        rfl
      · dsimp only
        rw [if_pos hfirst, Nat.mod_eq_of_lt hfirst]
        rfl
    · have hdiv : pos / 512 = 1 := by omega
      have hmod : pos % 512 = pos - 512 := by omega
      refine ⟨6, by decide, ?_, ?_⟩
      · rw [hdiv]
        rfl
      · dsimp only
        rw [if_neg hfirst, hmod]
        rfl
  obtain ⟨hread, hbyte⟩ := @readi_ofDevice sixHundred { i_size1 := 600 } .text
    ⟨0x100, 80, 520, 0⟩ _ hwhole rfl (by decide) fun _ => 0
  exact ⟨hread, hbyte, by decide⟩

end UnixV6.ExecFile
