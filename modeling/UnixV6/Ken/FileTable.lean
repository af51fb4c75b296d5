import UnixV6.Ken.Fio
import UnixV6.Lib.Run

/-!
# Reference counts of the file table

Between calls `f_count` is the number of descriptors that point to an entry, as long as no close is
abandoned in the close entry of a device and no count passes 127. Inside a call one reference more
may be pending: the last descriptor is cleared before `closei`, the count is decremented after it.
-/

open Function

namespace UnixV6

namespace FilePc

/-- The entry whose last reference this process is giving up, inside `closei`. -/
def closes : FilePc → Option FilePtr
  | .d_close fp _ => some fp
  | .closeiIput fp _ => some fp
  | _ => none

/-- The process is not in a system call. -/
def between : FilePc → Prop
  | .null => True
  | .user => True
  | .szomb => True
  | _ => False

instance (k : FilePc) : Decidable k.between := by
  cases k <;> unfold between <;> infer_instance

/-- How many descriptors, from the first, are known to be empty. -/
def cleared : FilePc → ℕ
  | .null => NOFILE
  | .szomb => NOFILE
  | .exit w => w
  | .d_close _ (.exit w) => w
  | .closeiIput _ (.exit w) => w
  | _ => 0

/-- What is known about the descriptors of a process at this place: which are empty, and which one
the open entry of a device is called for. -/
structure Placed (k : FilePc) (row : Fd → Option FilePtr) : Prop where
  cleared : ∀ i : Fd, i.val < k.cleared → row i = none
  opens : ∀ i fp, k = .openi i fp → row i = some fp

end FilePc

namespace FileSys

variable {s s' : FileSys} {p : Fin NPROC} {fp : FilePtr} {i : Fd}

/-- The number of descriptors, of all processes, that point to the entry. -/
def refs (s : FileSys) (fp : FilePtr) : ℕ := slotRefs s.u_ofile fp

/-- The number of processes that are giving up the last reference to the entry. -/
def closers (s : FileSys) (fp : FilePtr) : ℕ := rowRefs (fun p => (s.pc p).closes) fp

/-- References and pending ones. -/
def total (s : FileSys) (fp : FilePtr) : ℕ := s.refs fp + s.closers fp

/-- What holds of the table at every moment of a run without abandoned closes and wrapped
counts. -/
structure Inv (s : FileSys) : Prop where
  count : ∀ fp, (s.file fp).f_count = BitVec.ofNat 8 (s.total fp)
  bound : ∀ fp, s.total fp ≤ 127
  /-- `closei` runs for one process at a time, when no descriptor is left. -/
  last : ∀ fp, s.closers fp = 0 ∨ s.closers fp = 1 ∧ s.refs fp = 0
  placed : ∀ p, (s.pc p).Placed (s.u_ofile p)

/-! ## Counting -/

/-- Who is about to close `fp`, when one process goes on. -/
theorem closers_goto (s : FileSys) (p : Fin NPROC) (k : FilePc) (fp : FilePtr) :
    (s.goto p k).closers fp + pointsTo (s.pc p).closes fp = s.closers fp + pointsTo k.closes fp := by
  have hupd : (fun q => ((s.goto p k).pc q).closes) =
      update (fun q => (s.pc q).closes) p k.closes := by
    funext q
    exact apply_update (fun _ k => FilePc.closes k) s.pc p k q
  unfold closers
  rw [hupd]
  exact rowRefs_update _ p k.closes fp

/-- A process that goes on with nothing else to close. -/
theorem closers_goto_of_eq {k : FilePc} (h : k.closes = (s.pc p).closes) (fp : FilePtr) :
    (s.goto p k).closers fp = s.closers fp := by
  have hsum := s.closers_goto p k fp
  rw [h] at hsum
  omega

/-- The references to `fp`, when one descriptor changes. -/
theorem refs_setFd (s : FileSys) (p : Fin NPROC) (i : Fd) (v : Option FilePtr) (fp : FilePtr) :
    (s.setFd p i v).refs fp + pointsTo (s.u_ofile p i) fp = s.refs fp + pointsTo v fp :=
  slotRefs_slot s.u_ofile p i v fp

@[simp] theorem refs_goto (s : FileSys) (p : Fin NPROC) (k : FilePc) (fp : FilePtr) :
    (s.goto p k).refs fp = s.refs fp := rfl

theorem refs_pos (h : s.u_ofile p i = some fp) : 0 < s.refs fp :=
  slotRefs_pos h

theorem refs_eq_zero_iff : s.refs fp = 0 ↔ ∀ q j, s.u_ofile q j ≠ some fp :=
  slotRefs_eq_zero_iff

/-- The signed count is the number of references, as long as that fits. -/
theorem Inv.toInt_count (h : s.Inv) (fp : FilePtr) :
    (s.file fp).f_count.toInt = (s.total fp : ℤ) := by
  have hbound := h.bound fp
  have hnat : (s.file fp).f_count.toNat = s.total fp := by
    rw [h.count fp, BitVec.toNat_ofNat]
    exact Nat.mod_eq_of_lt (by omega)
  rw [BitVec.toInt_eq_toNat_of_lt (by omega), hnat]

/-- A count of 0 means that there are no references. -/
theorem Inv.total_eq_zero (h : s.Inv) (hcount : (s.file fp).f_count = 0) : s.total fp = 0 := by
  have hint := h.toInt_count fp
  have hzero : (0 : BitVec 8).toInt = 0 := by decide
  rw [hcount, hzero] at hint
  exact Int.ofNat_eq_zero.mp hint.symm

/-- The invariant reads the counts, the descriptors and the places of the processes only. -/
theorem Inv.congr (h : s.Inv) (hcount : ∀ fp, (s'.file fp).f_count = (s.file fp).f_count)
    (hfd : s'.u_ofile = s.u_ofile) (hpc : s'.pc = s.pc) : s'.Inv := by
  have hrefs : ∀ fp, s'.refs fp = s.refs fp := fun fp => by simp only [refs, hfd]
  have hclosers : ∀ fp, s'.closers fp = s.closers fp := fun fp => by simp only [closers, hpc]
  have htotal : ∀ fp, s'.total fp = s.total fp := fun fp => by
    simp only [total, hrefs, hclosers]
  refine ⟨fun fp => ?_, fun fp => ?_, fun fp => ?_, ?_⟩
  · rw [hcount, htotal, h.count]
  · rw [htotal]
    exact h.bound fp
  · rw [hrefs, hclosers]
    exact h.last fp
  · rw [hpc, hfd]
    exact h.placed

/-- `u_error` concerns no count of files. -/
theorem Inv.setError (h : s.Inv) (p : Fin NPROC) (e : Option Errno) : (s.setError p e).Inv :=
  h.congr (fun _ => rfl) rfl rfl

/-- The counts of inodes are not those of files. -/
theorem Inv.addInodeCount (h : s.Inv) (ip : InodePtr) (n : BitVec 8) :
    (s.addInodeCount ip n).Inv :=
  h.congr (fun _ => rfl) rfl rfl

/-- Only the process `p` has moved or changed its descriptors. -/
theorem Inv.placed_of_other (h : s.Inv) (hfd : ∀ q, q ≠ p → s'.u_ofile q = s.u_ofile q)
    (hpc : ∀ q, q ≠ p → s'.pc q = s.pc q) (hp : (s'.pc p).Placed (s'.u_ofile p)) (q : Fin NPROC) :
    (s'.pc q).Placed (s'.u_ofile q) := by
  by_cases hq : q = p
  · rw [hq]
    exact hp
  · rw [hfd q hq, hpc q hq]
    exact h.placed q

/-- A process goes to a place that is no start or end of `closei`. -/
theorem Inv.goto {k : FilePc} (h : s.Inv) (hcloses : k.closes = (s.pc p).closes)
    (hk : k.Placed (s.u_ofile p)) : (s.goto p k).Inv := by
  have htotal : ∀ fp, (s.goto p k).total fp = s.total fp := fun fp => by
    rw [total, refs_goto, closers_goto_of_eq hcloses, total]
  refine ⟨fun fp => ?_, fun fp => ?_, fun fp => ?_, ?_⟩
  · rw [htotal]
    exact h.count fp
  · rw [htotal]
    exact h.bound fp
  · rw [closers_goto_of_eq hcloses, refs_goto]
    exact h.last fp
  · apply h.placed_of_other (p := p)
    · exact fun q _ => rfl
    · exact fun q hq => update_of_ne hq ..
    · simpa only [FileSys.goto, update_self] using hk

/-- Places at which nothing is known about the descriptors. -/
theorem placed_of_free {k : FilePc} (row : Fd → Option FilePtr) (hcleared : k.cleared = 0)
    (hopens : ∀ i fp, k ≠ .openi i fp) : k.Placed row :=
  ⟨fun i hi => by omega, fun i fp hk => absurd hk (hopens i fp)⟩

/-- A count after a reference has come or gone. -/
theorem ofNat_add_one (n : ℕ) : BitVec.ofNat 8 n + 1#8 = BitVec.ofNat 8 (n + 1) := by
  rw [BitVec.ofNat_add]

theorem ofNat_sub_one (n : ℕ) : BitVec.ofNat 8 (n + 1) + -1#8 = BitVec.ofNat 8 n := by
  rw [BitVec.ofNat_add, ← BitVec.sub_eq_add_neg, BitVec.add_sub_cancel]

/-- A descriptor of `p` now points to `fp`, and the count of `fp` is one more. -/
theorem Inv.link (h : s.Inv) (hold : s.u_ofile p i = none) (hbound : s.total fp < 127)
    (hlast : s.closers fp = 0) (hk : (s.pc p).Placed (update (s.u_ofile p) i (some fp)))
    (hcount : ∀ x, (s'.file x).f_count =
      if x = fp then (s.file fp).f_count + 1#8 else (s.file x).f_count)
    (hfd : s'.u_ofile = (s.setFd p i (some fp)).u_ofile) (hpc : s'.pc = s.pc) : s'.Inv := by
  have hclosers : ∀ x, s'.closers x = s.closers x := fun x => by simp only [closers, hpc]
  -- one reference more, to `fp`
  have hrefs : ∀ x, s'.refs x = s.refs x + pointsTo (some fp) x := by
    intro x
    have hsum := s.refs_setFd p i (some fp) x
    rw [hold, pointsTo_none, add_zero] at hsum
    rw [← hsum]
    simp only [refs, hfd]
  have hother : ∀ x, x ≠ fp → s'.refs x = s.refs x := by
    intro x hx
    rw [hrefs, pointsTo_of_ne (by simpa using hx.symm), add_zero]
  have hself : s'.refs fp = s.refs fp + 1 := by
    rw [hrefs, pointsTo_self]
  refine ⟨fun x => ?_, fun x => ?_, fun x => ?_, ?_⟩
  · rw [hcount, total, hclosers]
    by_cases hx : x = fp
    · rw [if_pos hx, hx, h.count, hself, ofNat_add_one, total]
      congr 1
      omega
    · rw [if_neg hx, hother x hx, h.count, total]
  · rw [total, hclosers]
    by_cases hx : x = fp
    · rw [hx, hself]
      unfold total at hbound
      omega
    · rw [hother x hx]
      exact h.bound x
  · rw [hclosers]
    by_cases hx : x = fp
    · rw [hx]
      exact .inl hlast
    · rw [hother x hx]
      exact h.last x
  · apply h.placed_of_other (p := p)
    · intro q hq
      rw [hfd]
      exact update_of_ne hq ..
    · exact fun q _ => by rw [hpc]
    · rw [hfd, hpc]
      simpa only [FileSys.setFd, update_self] using hk

/-- Clearing a descriptor that pointed to `fp`. -/
theorem refs_cleared (hold : s.u_ofile p i = some fp) :
    (s.setFd p i none).refs fp + 1 = s.refs fp ∧
      ∀ x, x ≠ fp → (s.setFd p i none).refs x = s.refs x := by
  have hsum := s.refs_setFd p i none
  rw [hold] at hsum
  refine ⟨?_, fun x hx => ?_⟩
  · have hself := hsum fp
    rwa [pointsTo_self, pointsTo_none, add_zero] at hself
  · have hne : some fp ≠ some x := by simpa using hx.symm
    have hother := hsum x
    rwa [pointsTo_of_ne hne, pointsTo_none, add_zero, add_zero] at hother

/-- A descriptor that is open keeps the others from closing the file. -/
theorem Inv.closers_of_refs (h : s.Inv) (hold : s.u_ofile p i = some fp) : s.closers fp = 0 := by
  have hpos := refs_pos hold
  rcases h.last fp with hzero | ⟨-, hrefs⟩
  · exact hzero
  · omega

/-- A descriptor of `p` no longer points to `fp`, and the count of `fp` is one less. -/
theorem Inv.unlink (h : s.Inv) (hold : s.u_ofile p i = some fp)
    (hk : (s.pc p).Placed (update (s.u_ofile p) i none))
    (hcount : ∀ x, (s'.file x).f_count =
      if x = fp then (s.file fp).f_count + -1#8 else (s.file x).f_count)
    (hfd : s'.u_ofile = (s.setFd p i none).u_ofile) (hpc : s'.pc = s.pc) : s'.Inv := by
  -- the closers are the same processes, and one descriptor is gone
  have hclosers : ∀ x, s'.closers x = s.closers x := fun x => by simp only [closers, hpc]
  have hrefs : ∀ x, s'.refs x = (s.setFd p i none).refs x := fun x => by simp only [refs, hfd]
  obtain ⟨hself, hother⟩ := refs_cleared hold
  have hlast := h.closers_of_refs hold
  -- the fields of the invariant, at `fp` and elsewhere
  refine ⟨fun x => ?_, fun x => ?_, fun x => ?_, ?_⟩
  -- the count has gone down with the total
  · rw [hcount, total, hclosers, hrefs]
    by_cases hx : x = fp
    · have htotal : s.total fp = (s.setFd p i none).refs fp + 1 := by
        unfold total
        omega
      rw [if_pos hx, hx, h.count, htotal, ofNat_sub_one, hlast, add_zero]
    · rw [if_neg hx, hother x hx, h.count, total]
  · have hbound := h.bound x
    unfold total at hbound ⊢
    rw [hclosers, hrefs]
    by_cases hx : x = fp
    · subst hx
      omega
    · rw [hother x hx]
      exact hbound
  -- the last reference is still the only one
  · rw [hclosers, hrefs]
    by_cases hx : x = fp
    · rw [hx]
      exact .inl hlast
    · rw [hother x hx]
      exact h.last x
  -- nothing changed for the other processes
  · apply h.placed_of_other (p := p)
    · intro q hq
      rw [hfd]
      exact update_of_ne hq ..
    · exact fun q _ => by rw [hpc]
    · rw [hfd, hpc]
      simpa only [FileSys.setFd, update_self] using hk

/-- The last descriptor of `fp` is cleared and `p` enters `closei`: the reference is pending. -/
theorem Inv.enterClosei {k : FilePc} (h : s.Inv) (hold : s.u_ofile p i = some fp)
    (hone : s.total fp = 1) (hp : (s.pc p).closes = none) (hclose : k.closes = some fp)
    (hk : k.Placed (update (s.u_ofile p) i none)) (hcount : ∀ x, (s'.file x).f_count =
      (s.file x).f_count) (hfd : s'.u_ofile = (s.setFd p i none).u_ofile)
    (hpc : s'.pc = (s.goto p k).pc) : s'.Inv := by
  have hclosers : ∀ x, s'.closers x = s.closers x + pointsTo (some fp) x := by
    intro x
    have hsum := s.closers_goto p k x
    rw [hp, hclose, pointsTo_none, add_zero] at hsum
    rw [← hsum]
    simp only [closers, hpc]
  have hrefs : ∀ x, s'.refs x = (s.setFd p i none).refs x := fun x => by simp only [refs, hfd]
  obtain ⟨hself, hother⟩ := refs_cleared hold
  have hlast := h.closers_of_refs hold
  -- the last reference is the one inside `closei` now
  have hsplit : s'.closers fp = 1 ∧ s'.refs fp = 0 := by
    unfold total at hone
    rw [hclosers, pointsTo_self, hrefs]
    omega
  have hsame : ∀ x, x ≠ fp → s'.closers x = s.closers x ∧ s'.refs x = s.refs x := by
    intro x hx
    have hne : some fp ≠ some x := by simpa using hx.symm
    rw [hclosers, pointsTo_of_ne hne, hrefs, hother x hx]
    exact ⟨rfl, rfl⟩
  have htotal : ∀ x, s'.total x = s.total x := by
    intro x
    by_cases hx : x = fp
    · rw [hx, hone, total, hsplit.1, hsplit.2]
    · rw [total, (hsame x hx).1, (hsame x hx).2, total]
  refine ⟨fun x => ?_, fun x => ?_, fun x => ?_, ?_⟩
  · rw [hcount, htotal, h.count]
  · rw [htotal]
    exact h.bound x
  · by_cases hx : x = fp
    · rw [hx]
      exact .inr hsplit
    · rw [(hsame x hx).1, (hsame x hx).2]
      exact h.last x
  · apply h.placed_of_other (p := p)
    · intro q hq
      rw [hfd]
      exact update_of_ne hq ..
    · intro q hq
      rw [hpc]
      exact update_of_ne hq ..
    · rw [hfd, hpc]
      simpa only [FileSys.setFd, FileSys.goto, update_self] using hk

/-- `p` leaves `closei` and the count goes down: the pending reference is gone. -/
theorem Inv.leaveClosei {k : FilePc} (h : s.Inv) (hp : (s.pc p).closes = some fp)
    (hclose : k.closes = none) (hk : k.Placed (s.u_ofile p)) (hcount : ∀ x, (s'.file x).f_count =
      if x = fp then (s.file fp).f_count + -1#8 else (s.file x).f_count)
    (hfd : s'.u_ofile = s.u_ofile) (hpc : s'.pc = (s.goto p k).pc) : s'.Inv := by
  -- the process no longer closes `fp`
  have hclosers : ∀ x, s'.closers x + pointsTo (some fp) x = s.closers x := by
    intro x
    have hsum := s.closers_goto p k x
    rw [hp, hclose, pointsTo_none, add_zero] at hsum
    rw [← hsum]
    simp only [closers, hpc]
  have hrefs : ∀ x, s'.refs x = s.refs x := fun x => by simp only [refs, hfd]
  have hself : s'.closers fp + 1 = s.closers fp := by
    rw [← hclosers fp, pointsTo_self]
  have hother : ∀ x, x ≠ fp → s'.closers x = s.closers x := by
    intro x hx
    have hne : some fp ≠ some x := by simpa using hx.symm
    rw [← hclosers x, pointsTo_of_ne hne, add_zero]
  -- so the total goes down by one, at `fp` only
  have htotal : s.total fp = s'.total fp + 1 := by
    unfold total
    rw [hrefs]
    omega
  have hsame : ∀ x, x ≠ fp → s'.total x = s.total x := by
    intro x hx
    rw [total, hrefs, hother x hx, total]
  -- the fields of the invariant, at `fp` and elsewhere
  refine ⟨fun x => ?_, fun x => ?_, fun x => ?_, ?_⟩
  · rw [hcount]
    by_cases hx : x = fp
    · rw [if_pos hx, hx, h.count, htotal, ofNat_sub_one]
    · rw [if_neg hx, hsame x hx, h.count]
  · have hbound := h.bound x
    by_cases hx : x = fp
    · subst hx
      omega
    · rwa [hsame x hx]
  · have hlast := h.last x
    rw [hrefs]
    by_cases hx : x = fp
    · subst hx
      omega
    · rwa [hother x hx]
  · apply h.placed_of_other (p := p)
    · exact fun q _ => by rw [hfd]
    · intro q hq
      rw [hpc]
      exact update_of_ne hq ..
    · rw [hfd, hpc]
      simpa only [FileSys.goto, update_self] using hk

/-! ## The routines -/

theorem ufalloc_eq (h : s.ufalloc p = .ok i) : s.u_ofile p i = none := by
  unfold ufalloc at h
  split at h
  case h_1 j hj =>
    cases h
    simpa using List.find?_some hj
  case h_2 => cases h

/-- What `falloc` hands out was not in use, and it changes nothing else. -/
theorem falloc_eq (h : s.falloc p = .ok (i, fp, s')) :
    s.u_ofile p i = none ∧ (s.file fp).f_count = 0 ∧
      s' = (s.setFd p i (some fp)).setFile fp
        { s.file fp with f_count := (s.file fp).f_count + 1, f_offset := (0, 0) } := by
  unfold falloc at h
  split at h
  case h_1 => cases h
  case h_2 j hj =>
    split at h
    case h_1 f hf =>
      cases h
      exact ⟨ufalloc_eq hj, by simpa using List.find?_some hf, rfl⟩
    case h_2 => cases h

/-- The count of the file that is set. -/
theorem setFile_count (s : FileSys) (f : File) (x : FilePtr) :
    ((s.setFile fp f).file x).f_count = if x = fp then f.f_count else (s.file x).f_count := by
  by_cases hx : x = fp
  · rw [if_pos hx, hx]
    simp only [setFile, update_self]
  · rw [if_neg hx]
    simp only [setFile, update_of_ne hx]

/-- The count that is changed. -/
theorem addCount_count (s : FileSys) (n : BitVec 8) (x : FilePtr) :
    ((s.addCount fp n).file x).f_count =
      if x = fp then (s.file fp).f_count + n else (s.file x).f_count := by
  unfold addCount
  exact s.setFile_count _ x

/-- A file structure changes in other fields than its count. -/
theorem Inv.setFile (h : s.Inv) {f : File} (hcount : f.f_count = (s.file fp).f_count) :
    (s.setFile fp f).Inv := by
  refine h.congr (fun x => ?_) rfl rfl
  rw [setFile_count]
  split
  case isTrue hx => rw [hx, hcount]
  case isFalse => rfl

/-- `falloc` hands out an entry without references. -/
theorem Inv.falloc (h : s.Inv) (hf : s.falloc p = .ok (i, fp, s'))
    (hk : ∀ row, (s.pc p).Placed row) :
    s'.Inv ∧ (s'.file fp).f_count = 1#8 ∧ s'.u_ofile p i = some fp ∧ s'.pc = s.pc := by
  obtain ⟨hnone, hcount, rfl⟩ := falloc_eq hf
  have htotal := h.total_eq_zero hcount
  refine ⟨?_, ?_, ?_, rfl⟩
  · have hbound : s.total fp < 127 := by omega
    have hlast : s.closers fp = 0 := by
      unfold total at htotal
      omega
    exact h.link hnone hbound hlast (hk _) (fun x => setFile_count ..) rfl rfl
  · rw [setFile_count, if_pos rfl, hcount]
    rfl
  · simp only [FileSys.setFile, setFd, update_self]

theorem getf_eq {f : ℤ} (h : s.getf p f = .ok (i, fp)) : s.u_ofile p i = some fp := by
  unfold getf at h
  split at h
  case isTrue hf =>
    dsimp only at h
    split at h
    case h_1 x hx =>
      cases h
      exact hx
    case h_2 => cases h
  case isFalse => cases h

/-- `open1` gets a file, or gives the inode back. -/
theorem Inv.open1 (h : s.Inv) {mode : FFlag} (hp : s.pc p = .namei mode) (ip : InodePtr)
    (m : FFlag) : (s.open1 p ip m).Inv := by
  have hfree : ∀ row, (s.pc p).Placed row := by
    intro row
    rw [hp]
    exact placed_of_free row rfl fun _ _ => nofun
  have hcloses : (s.pc p).closes = none := by rw [hp]; rfl
  unfold FileSys.open1
  split
  case h_1 e he =>
    exact (h.setError p _).goto hcloses.symm (placed_of_free _ rfl fun _ _ => nofun)
  case h_2 i fp s' hf =>
    obtain ⟨h', -, hfd, hpc⟩ := h.falloc hf hfree
    have hflags : (s'.setFile fp { s'.file fp with
        f_flag := { fread := m.fread, fwrite := m.fwrite }, f_inode := ip }).Inv :=
      h'.setFile rfl
    refine hflags.goto ?_ ⟨fun j hj => ?_, fun j x hj => ?_⟩
    · change FilePc.closes _ = (s'.pc p).closes
      rw [hpc, hcloses]
      rfl
    · exact absurd hj (Nat.not_lt_zero _)
    · cases hj
      exact hfd

/-- A failed open gives the file back. -/
theorem Inv.openFailed (h : s.Inv) (hp : s.pc p = .openi i fp) (e : Errno) :
    (s.openFailed p i fp e).Inv := by
  have hfd := (hp ▸ h.placed p).opens i fp rfl
  have hgone := h.goto (p := p) (k := .iput (s.file fp).f_inode) (by rw [hp]; rfl)
    (placed_of_free _ rfl fun _ _ => nofun)
  have hunlink : (((s.goto p (.iput (s.file fp).f_inode)).setFd p i none).addCount fp (-1)).Inv := by
    refine hgone.unlink hfd ?_ (fun x => addCount_count ..) rfl rfl
    simp only [FileSys.goto, update_self]
    exact placed_of_free _ rfl fun _ _ => nofun
  exact (hunlink.setError p (some e)).congr (fun _ => rfl) rfl rfl

/-- `pipe` gets two files, or none. -/
theorem Inv.pipe (h : s.Inv) (hp : s.pc p = .ialloc) (ip : InodePtr) : (s.pipe p ip).Inv := by
  have hfree : ∀ row, (s.pc p).Placed row := by
    intro row
    rw [hp]
    exact placed_of_free row rfl fun _ _ => nofun
  have hcloses : (s.pc p).closes = none := by rw [hp]; rfl
  unfold FileSys.pipe
  split
  case h_1 e he =>
    exact (h.setError p _).goto hcloses.symm (placed_of_free _ rfl fun _ _ => nofun)
  case h_2 r rf s₁ hr =>
    obtain ⟨h₁, hone, hfd, hpc⟩ := h.falloc hr hfree
    have hfree' : ∀ row, (s₁.pc p).Placed row := by
      rwa [hpc]
    have hcloses' : (s₁.pc p).closes = none := by
      rwa [hpc]
    split
    case h_1 e he =>
      -- The count of `rf` is 1, so setting it to 0 is a decrement.
      have hunlink : ((s₁.setFile rf { s₁.file rf with f_count := 0 }).setFd p r none).Inv := by
        refine h₁.unlink hfd (hfree' _) (fun x => ?_) rfl rfl
        change ((s₁.setFile rf { s₁.file rf with f_count := 0 }).file x).f_count = _
        rw [setFile_count, hone]
        rfl
      exact (hunlink.setError p _).goto hcloses'.symm (placed_of_free _ rfl fun _ _ => nofun)
    case h_2 w wf s₂ hw =>
      obtain ⟨h₂, -, -, hpc₂⟩ := h₁.falloc hw hfree'
      have hwrite : (s₂.setFile wf { s₂.file wf with
          f_flag := { fwrite := true, fpipe := true }, f_inode := ip }).Inv :=
        h₂.setFile rfl
      have hread := hwrite.setFile (f := { (s₂.setFile wf { s₂.file wf with
          f_flag := { fwrite := true, fpipe := true }, f_inode := ip }).file rf with
        f_flag := { fread := true, fpipe := true }, f_inode := ip }) rfl
      have hcloses₂ : (s₂.pc p).closes = none := by
        rwa [hpc₂]
      have huser := hread.goto (p := p) (k := .user) hcloses₂.symm
        (placed_of_free _ rfl fun _ _ => nofun)
      exact huser.congr (fun _ => rfl) rfl rfl

/-- A call returns. -/
theorem Inv.ret (h : s.Inv) (hp : (s.pc p).closes = none) (e : Option Errno) : (s.ret p e).Inv :=
  (h.setError p e).goto hp.symm (placed_of_free _ rfl fun _ _ => nofun)

/-- `dup` adds a reference, as long as the count is not full. -/
theorem Inv.dup (h : s.Inv) (hp : s.pc p = .user) (f : ℤ)
    (hok : ∀ rf fp i, s.getf p f = .ok (rf, fp) → s.ufalloc p = .ok i → s.refs fp < 127) :
    (s.dup p f).Inv := by
  have hcloses : (s.pc p).closes = none := by rw [hp]; rfl
  unfold FileSys.dup
  split
  case h_1 e he => exact h.ret hcloses _
  case h_2 rf fp hget =>
    split
    case h_1 e he => exact h.ret hcloses _
    case h_2 i hi =>
      have hlast := h.closers_of_refs (getf_eq hget)
      have hbound : s.total fp < 127 := by
        have hrefs := hok rf fp i hget hi
        unfold total
        omega
      have hlink : ((s.setFd p i (some fp)).addCount fp 1).Inv := by
        refine h.link (ufalloc_eq hi) hbound hlast ?_ (fun x => addCount_count ..) rfl rfl
        rw [hp]
        exact placed_of_free _ rfl fun _ _ => nofun
      exact hlink.ret hcloses none

/-- `closef` changes an inode at most before it looks at the count. -/
theorem closef_eq (s : FileSys) (p : Fin NPROC) (fp : FilePtr) (k : AfterClosef) :
    ∃ s₁ : FileSys, s₁.file = s.file ∧ s₁.u_ofile = s.u_ofile ∧ s₁.pc = s.pc ∧
      s.closef p fp k = if (s.file fp).f_count.toInt ≤ 1 then s₁.closei p fp k
        else s₁.closefDone p fp k := by
  unfold closef
  dsimp only
  by_cases hpipe : (s.file fp).f_flag.fpipe
  · rw [if_pos hpipe]
    exact ⟨s.setMode _ _, rfl, rfl, rfl, rfl⟩
  · rw [if_neg hpipe]
    exact ⟨s, rfl, rfl, rfl, rfl⟩

/-- `closei` sends the process to the close entry of the device or to `iput`. -/
theorem closei_eq (s : FileSys) (p : Fin NPROC) (fp : FilePtr) (k : AfterClosef) :
    ∃ c, (c = .d_close fp k ∨ c = .closeiIput fp k) ∧ s.closei p fp k = s.goto p c := by
  unfold closei
  dsimp only
  split
  · exact ⟨_, .inl rfl, rfl⟩
  · exact ⟨_, .inr rfl, rfl⟩

theorem closes_after (k : AfterClosef) : (AfterClosef.pc k).closes = none := by
  cases k <;> rfl

/-- Inside `closei` as much is known about the descriptors as after it. -/
theorem placed_closei {k : AfterClosef} {c : FilePc} (row : Fd → Option FilePtr)
    (hc : c = .d_close fp k ∨ c = .closeiIput fp k) :
    c.closes = some fp ∧ (c.Placed row ↔ (AfterClosef.pc k).Placed row) := by
  have hiff : ∀ c' : FilePc, c'.cleared = (AfterClosef.pc k).cleared →
      (∀ i fp, c' ≠ .openi i fp) → (c'.Placed row ↔ (AfterClosef.pc k).Placed row) := by
    intro c' hcleared hopens
    have hafter : ∀ i fp, AfterClosef.pc k ≠ .openi i fp := by
      cases k <;> exact fun _ _ => nofun
    constructor
    · exact fun h => ⟨fun i hi => h.cleared i (by omega), fun i fp hk => absurd hk (hafter i fp)⟩
    · exact fun h => ⟨fun i hi => h.cleared i (by omega), fun i fp hk => absurd hk (hopens i fp)⟩
  rcases hc with rfl | rfl
  · refine ⟨rfl, hiff _ ?_ fun _ _ => nofun⟩
    cases k <;> rfl
  · refine ⟨rfl, hiff _ ?_ fun _ _ => nofun⟩
    cases k <;> rfl

/-- `closef` of a descriptor that has just been cleared. -/
theorem Inv.closef (h : s.Inv) (hold : s.u_ofile p i = some fp) {k : AfterClosef}
    (hp : (s.pc p).closes = none) (hpk : (s.pc p).Placed (update (s.u_ofile p) i none))
    (hk : (AfterClosef.pc k).Placed (update (s.u_ofile p) i none)) :
    ((s.setFd p i none).closef p fp k).Inv := by
  obtain ⟨s₁, hfile, hfd, hpc, heq⟩ := (s.setFd p i none).closef_eq p fp k
  have hpos := refs_pos hold
  have hint := h.toInt_count fp
  rw [heq]
  split
  case isTrue hle =>
    change (s.file fp).f_count.toInt ≤ 1 at hle
    -- the last reference
    have hone : s.total fp = 1 := by
      unfold total at hint ⊢
      omega
    obtain ⟨c, hc, hclosei⟩ := s₁.closei_eq p fp k
    rw [hclosei]
    obtain ⟨hcloses, hplaced⟩ := placed_closei (update (s.u_ofile p) i none) hc
    refine h.enterClosei hold hone hp hcloses (hplaced.mpr hk) (fun x => ?_) hfd ?_
    · change (s₁.file x).f_count = _
      rw [hfile]
      rfl
    · change update s₁.pc p c = update s.pc p c
      rw [hpc]
      rfl
  case isFalse =>
    -- there are others
    have hunlink : (s₁.addCount fp (-1)).Inv := by
      refine h.unlink hold hpk (fun x => ?_) hfd hpc
      rw [addCount_count, hfile]
      rfl
    refine hunlink.goto ?_ ?_
    · change _ = (s₁.pc p).closes
      rw [hpc, closes_after]
      exact hp.symm
    · change (AfterClosef.pc k).Placed (s₁.u_ofile p)
      rw [hfd]
      simpa only [setFd, update_self] using hk

/-- A process calls `closei` for an entry when it stands inside it. -/
theorem closef_calls_iff (h : s.Inv) (hold : s.u_ofile p i = some fp) (k : AfterClosef) :
    ((((s.setFd p i none).closef p fp k).pc p).closes = some fp ↔
      ∀ q j, ((s.setFd p i none).closef p fp k).u_ofile q j ≠ some fp) := by
  obtain ⟨s₁, hfile, hfd, hpc, heq⟩ := (s.setFd p i none).closef_eq p fp k
  obtain ⟨hself, -⟩ := refs_cleared hold
  have hlast := h.closers_of_refs hold
  have hint := h.toInt_count fp
  unfold total at hint
  rw [heq]
  split
  case isTrue hle =>
    change (s.file fp).f_count.toInt ≤ 1 at hle
    obtain ⟨c, hc, hclosei⟩ := s₁.closei_eq p fp k
    -- nobody points to the entry any more
    have hzero : (s.setFd p i none).refs fp = 0 := by omega
    rw [hclosei]
    refine iff_of_true ?_ ?_
    · simp only [FileSys.goto, update_self]
      exact (placed_closei (s.u_ofile p) hc).1
    · change ∀ q j, s₁.u_ofile q j ≠ some fp
      rw [hfd]
      exact refs_eq_zero_iff.mp hzero
  case isFalse hgt =>
    change ¬ (s.file fp).f_count.toInt ≤ 1 at hgt
    -- somebody does
    have hpos : (s.setFd p i none).refs fp ≠ 0 := by omega
    refine iff_of_false ?_ ?_
    · simp only [closefDone, FileSys.goto, update_self, closes_after]
      nofun
    · change ¬ ∀ q j, s₁.u_ofile q j ≠ some fp
      rw [hfd]
      exact fun hnone => hpos (refs_eq_zero_iff.mpr hnone)

theorem placed_user (row : Fd → Option FilePtr) : FilePc.user.Placed row :=
  placed_of_free row rfl fun _ _ => nofun

theorem Inv.close (h : s.Inv) (hp : s.pc p = .user) (f : ℤ) : (s.close p f).Inv := by
  have hcloses : (s.pc p).closes = none := by rw [hp]; rfl
  unfold FileSys.close
  split
  case h_1 e he => exact h.ret hcloses _
  case h_2 rf fp hget =>
    refine (h.setError p none).closef (getf_eq hget) hcloses ?_ (placed_user _)
    change (s.pc p).Placed _
    rw [hp]
    exact placed_user _

theorem Inv.exit (h : s.Inv) {w : ℕ} (hp : s.pc p = .exit w) : (s.exit p w).Inv := by
  have hcloses : (s.pc p).closes = none := by rw [hp]; rfl
  have hbelow : ∀ i : Fd, i.val < w → s.u_ofile p i = none := (hp ▸ h.placed p).cleared
  unfold FileSys.exit
  split
  case isTrue hw =>
    -- One descriptor more is empty after this turn.
    have hnext : ∀ row : Fd → Option FilePtr, (∀ i : Fd, i.val < w → row i = none) →
        row ⟨w, hw⟩ = none → (FilePc.exit (w + 1)).Placed row := by
      refine fun row hrow hthis => ⟨fun i hi => ?_, fun _ _ => nofun⟩
      rcases Nat.lt_succ_iff_lt_or_eq.mp hi with hlt | heq
      · exact hrow i hlt
      · rwa [show i = ⟨w, hw⟩ from Fin.ext heq]
    split
    case h_1 hnone => exact h.goto hcloses.symm (hnext _ hbelow hnone)
    case h_2 fp hfp =>
      have hrest : ∀ i : Fd, i.val < w → update (s.u_ofile p) ⟨w, hw⟩ none i = none := by
        intro i hi
        have hne : i ≠ ⟨w, hw⟩ := fun heq => by simp [heq] at hi
        rw [update_of_ne hne]
        exact hbelow i hi
      refine h.closef hfp hcloses ?_ (hnext _ hrest (update_self ..))
      rw [hp]
      exact ⟨hrest, fun _ _ => nofun⟩
  case isFalse hw =>
    refine h.goto hcloses.symm ⟨fun i _ => hbelow i ?_, fun _ _ => nofun⟩
    have hi := i.isLt
    omega

/-- The end of `closef` decrements the count. -/
theorem Inv.closefDone (h : s.Inv) {k : AfterClosef} (hp : s.pc p = .closeiIput fp k) :
    (s.closefDone p fp k).Inv := by
  have hinside : (FilePc.closeiIput fp k).Placed (s.u_ofile p) := hp ▸ h.placed p
  have hplaced := (placed_closei (s.u_ofile p) (.inr rfl)).2.mp hinside
  refine h.leaveClosei ?_ (closes_after k) hplaced (fun x => addCount_count ..) rfl rfl
  rw [hp]
  rfl

/-- `fork` counts one descriptor of the child. -/
theorem countFd_count (p : Fin NPROC) (s : FileSys) (i : Fd) (x : FilePtr) :
    ((countFd p s i).file x).f_count =
      (s.file x).f_count + BitVec.ofNat 8 (pointsTo (s.u_ofile p i) x) ∧
    (countFd p s i).u_ofile = s.u_ofile ∧ (countFd p s i).pc = s.pc := by
  unfold countFd
  split
  case h_1 ofp hofp =>
    refine ⟨?_, rfl, rfl⟩
    rw [addCount_count, hofp]
    by_cases hx : x = ofp
    · rw [if_pos hx, hx, pointsTo_self]
      rfl
    · have hne : some ofp ≠ some x := by simpa using Ne.symm hx
      rw [if_neg hx, pointsTo_of_ne hne]
      simp
  case h_2 hnone =>
    rw [hnone, pointsTo_none]
    exact ⟨by simp, rfl, rfl⟩

/-- The loop of `newproc` adds as many references to an entry as the parent has descriptors for
it. -/
theorem countFds_count (s : FileSys) (p : Fin NPROC) (x : FilePtr) :
    ((s.countFds p).file x).f_count =
      (s.file x).f_count + BitVec.ofNat 8 (rowRefs (s.u_ofile p) x) ∧
    (s.countFds p).u_ofile = s.u_ofile ∧ (s.countFds p).pc = s.pc := by
  have hloop : ∀ (l : List Fd) (s : FileSys),
      ((l.foldl (countFd p) s).file x).f_count = (s.file x).f_count +
        BitVec.ofNat 8 (l.map fun i => pointsTo (s.u_ofile p i) x).sum ∧
      (l.foldl (countFd p) s).u_ofile = s.u_ofile ∧ (l.foldl (countFd p) s).pc = s.pc := by
    intro l
    induction l with
    | nil => exact fun s => ⟨by simp, rfl, rfl⟩
    | cons i l ih =>
      intro s
      obtain ⟨hturn, hfd, hpc⟩ := countFd_count p s i x
      obtain ⟨hcount, hfds, hpcs⟩ := ih (countFd p s i)
      rw [List.foldl_cons, List.map_cons, List.sum_cons]
      refine ⟨?_, hfds.trans hfd, hpcs.trans hpc⟩
      rw [hcount, hturn, hfd, BitVec.ofNat_add, BitVec.add_assoc]
  have hall := hloop (List.finRange NOFILE) s
  rw [← Fin.sum_univ_def] at hall
  unfold rowRefs
  exact hall

/-- The child has the parent's descriptors and every entry has been counted for it. -/
theorem Inv.forked {q : Fin NPROC} (h : s.Inv) (hnull : s.pc q = .null)
    (hcount : ∀ x, (s'.file x).f_count =
      (s.file x).f_count + BitVec.ofNat 8 (rowRefs (s.u_ofile p) x))
    (hfd : s'.u_ofile = update s.u_ofile q (s.u_ofile p)) (hpc : s'.pc = s.pc)
    (hok : ∀ x, s.refs x + rowRefs (s.u_ofile p) x ≤ 127) : (s'.goto q .user).Inv := by
  have hempty : s.u_ofile q = fun _ => none := by
    funext i
    exact (hnull ▸ h.placed q).cleared i i.isLt
  have hrefs : ∀ x, (s'.goto q .user).refs x = s.refs x + rowRefs (s.u_ofile p) x := by
    intro x
    have hrow := slotRefs_row s.u_ofile q (s.u_ofile p) x
    rw [hempty, rowRefs_none, add_zero] at hrow
    rw [refs_goto, refs, hfd, hrow, refs]
  have hclosers : ∀ x, (s'.goto q .user).closers x = s.closers x := by
    intro x
    rw [closers_goto_of_eq (by rw [hpc, hnull]; rfl)]
    simp only [closers, hpc]
  -- An entry whose last reference is pending has no descriptors to copy.
  have hrow : ∀ x, s.refs x = 0 → rowRefs (s.u_ofile p) x = 0 := by
    intro x hzero
    exact rowRefs_eq_zero_iff.mpr fun i => refs_eq_zero_iff.mp hzero p i
  refine ⟨fun x => ?_, fun x => ?_, fun x => ?_, fun r => ?_⟩
  · change (s'.file x).f_count = _
    rw [hcount, h.count, ← BitVec.ofNat_add]
    unfold total
    rw [hrefs, hclosers]
    congr 1
    omega
  · have hbound := hok x
    have hlast := h.last x
    have hzero := hrow x
    unfold total
    rw [hrefs, hclosers]
    omega
  · have hlast := h.last x
    have hzero := hrow x
    rw [hrefs, hclosers]
    omega
  · by_cases hr : r = q
    · subst hr
      simp only [FileSys.goto, update_self]
      exact placed_user _
    · simp only [FileSys.goto, update_of_ne hr, hpc, hfd]
      exact h.placed r

/-- `fork` adds a reference for each open descriptor, as long as no count is full. -/
theorem Inv.fork (h : s.Inv) (hp : s.pc p = .user)
    (hok : s.freeProc ≠ none → ∀ fp, s.refs fp + rowRefs (s.u_ofile p) fp ≤ 127) :
    (s.fork p).Inv := by
  have hcloses : (s.pc p).closes = none := by rw [hp]; rfl
  unfold FileSys.fork
  split
  case h_1 => exact h.ret hcloses _
  case h_2 q hq =>
    have hnull : s.pc q = .null := by simpa using List.find?_some hq
    obtain ⟨s₁, hs₁⟩ : ∃ s₁, s₁ = { s.countFds p with
      u_ofile := update (s.countFds p).u_ofile q ((s.countFds p).u_ofile p) } := ⟨_, rfl⟩
    have hcount : ∀ x, (s₁.file x).f_count =
        (s.file x).f_count + BitVec.ofNat 8 (rowRefs (s.u_ofile p) x) := fun x => by
      rw [hs₁]
      exact (s.countFds_count p x).1
    have hfd : s₁.u_ofile = update s.u_ofile q (s.u_ofile p) := by
      rw [hs₁, ← (s.countFds_count p 0).2.1]
    have hpc : s₁.pc = s.pc := by
      rw [hs₁]
      exact (s.countFds_count p 0).2.2
    -- the child has the same row of descriptors
    have hchild : (s₁.goto q .user).Inv := h.forked hnull hcount hfd hpc (hok (by simp [hq]))
    have huser : ((s₁.goto q .user).pc p).closes = none := by
      by_cases hpq : p = q
      · subst hpq
        simp only [FileSys.goto, update_self]
        rfl
      · simp only [FileSys.goto, update_of_ne hpq, hpc]
        exact hcloses
    have hret := hchild.ret huser none
    rw [hs₁] at hret
    exact hret

/-! ## Runs -/

/-- No close is abandoned in the close entry of a device, and neither `dup` nor `fork` takes the
number of descriptors of an entry past 127. -/
def Ok (s : FileSys) : FileAct → Prop
  | .call p (.dup f) =>
    ∀ rf fp i, s.getf p f = .ok (rf, fp) → s.ufalloc p = .ok i → s.refs fp < 127
  | .call p .fork => s.freeProc ≠ none → ∀ fp, s.refs fp + rowRefs (s.u_ofile p) fp ≤ 127
  | .abandon p => ∀ fp k, s.pc p ≠ .d_close fp k
  | _ => True

/-- Every call of a process keeps the counts exact. -/
theorem Inv.call (h : s.Inv) (hp : s.pc p = .user) {c : FileCall} (hok : s.Ok (.call p c)) :
    (s.call p c).Inv := by
  have hcloses : (s.pc p).closes = none := by rw [hp]; rfl
  cases c with
  | open1 mode => exact (h.setError p _).goto hcloses.symm (placed_of_free _ rfl fun _ _ => nofun)
  | pipe => exact (h.setError p _).goto hcloses.symm (placed_of_free _ rfl fun _ _ => nofun)
  | dup f => exact h.dup hp f hok
  | close f => exact h.close hp f
  | fork => exact h.fork hp hok
  | exit => exact h.goto hcloses.symm ⟨fun i hi => absurd hi (Nat.not_lt_zero _), fun _ _ => nofun⟩

/-- A process that gives its call up, or has left it, without `closei` on its stack. -/
theorem Inv.goto_user (h : s.Inv) (hp : (s.pc p).closes = none) : (s.goto p .user).Inv :=
  h.goto hp.symm (placed_user _)

/-- Every step keeps the counts exact. -/
theorem Inv.step {a : FileAct} (h : s.Inv) (hok : s.Ok a) (hs : s.step a = some s') : s'.Inv := by
  cases a with
  | call p c =>
    obtain ⟨hp, hs⟩ := Option.ite_none_right_eq_some.mp hs
    cases hs
    exact h.call hp hok
  | found p ip =>
    simp only [FileSys.step] at hs
    split at hs
    case h_1 mode hp => cases hs; exact (h.addInodeCount ip 1).open1 hp ip mode
    case h_2 hp => cases hs; exact (h.addInodeCount ip 1).pipe hp ip
    case h_3 => cases hs
  | failed p e =>
    simp only [FileSys.step] at hs
    split at hs
    case h_1 mode hp => cases hs; exact h.ret (by rw [hp]; rfl) _
    case h_2 hp => cases hs; exact h.ret (by rw [hp]; rfl) _
    case h_3 i fp hp => cases hs; exact h.openFailed hp e
    case h_4 => cases hs
  | denied p ip e =>
    simp only [FileSys.step] at hs
    split at hs
    case h_1 mode hp =>
      cases hs
      refine ((h.addInodeCount ip 1).setError p _).goto ?_ (placed_of_free _ rfl fun _ _ => nofun)
      change _ = (s.pc p).closes
      rw [hp]
      rfl
    case h_2 => cases hs
  | cont p =>
    simp only [FileSys.step] at hs
    split at hs
    case h_1 i fp hp => cases hs; exact h.ret (by rw [hp]; rfl) _
    case h_2 ip hp =>
      cases hs
      refine (h.addInodeCount ip (-1)).goto_user ?_
      change (s.pc p).closes = none
      rw [hp]
      rfl
    case h_3 fp k hp =>
      -- Both places are inside `closei`.
      cases hs
      have hinside : (FilePc.d_close fp k).Placed (s.u_ofile p) := hp ▸ h.placed p
      have hafter := (placed_closei (s.u_ofile p) (.inl rfl)).2.mp hinside
      exact h.goto (by rw [hp]; rfl) ((placed_closei (s.u_ofile p) (.inr rfl)).2.mpr hafter)
    case h_4 fp k hp => cases hs; exact (h.addInodeCount _ (-1)).closefDone hp
    case h_5 w hp => cases hs; exact h.exit hp
    case h_6 => cases hs
  | abandon p =>
    simp only [FileSys.step] at hs
    split at hs
    case h_1 mode hp => cases hs; exact h.goto_user (by rw [hp]; rfl)
    case h_2 i fp hp => cases hs; exact h.goto_user (by rw [hp]; rfl)
    case h_3 hp => cases hs; exact h.goto_user (by rw [hp]; rfl)
    case h_4 fp hp => exact absurd hp (hok fp .ret)
    case h_5 => cases hs
  | wait q =>
    obtain ⟨hq, hs⟩ := Option.ite_none_right_eq_some.mp hs
    cases hs
    have hplaced := hq ▸ h.placed q
    exact h.goto (by rw [hq]; rfl) ⟨hplaced.cleared, fun _ _ => nofun⟩
  | inodes t =>
    cases hs
    exact h.congr (fun _ => rfl) rfl rfl

theorem inv_boot (t : InodePtr → FInode) : (boot t).Inv := by
  have hrefs : ∀ fp, (boot t).refs fp = 0 := fun fp => slotRefs_none fp
  have hpc : ∀ p, (boot t).pc p = .user ∨ (boot t).pc p = .null := by
    intro p
    by_cases hp : p = 0
    · exact .inl (if_pos hp)
    · exact .inr (if_neg hp)
  have hclosers : ∀ fp, (boot t).closers fp = 0 := by
    intro fp
    unfold closers
    refine rowRefs_eq_zero_iff.mpr fun p => ?_
    rcases hpc p with hp | hp <;> rw [hp] <;> nofun
  refine ⟨fun fp => ?_, fun fp => ?_, fun fp => .inl (hclosers fp), fun p => ?_⟩
  · rw [total, hrefs, hclosers]
    rfl
  · rw [total, hrefs, hclosers]
    omega
  · refine ⟨fun _ _ => rfl, fun i fp hopen => ?_⟩
    rcases hpc p with hp | hp <;> rw [hp] at hopen <;> cases hopen

/-- In every run the counts are exact. -/
theorem inv_of_reachable {t : InodePtr → FInode} (h : Reachable step Ok (boot t) s) : s.Inv :=
  h.invariant (inv_boot t) fun _ _ _ hinv hok hs => hinv.step hok hs

/-- Every process is outside the system calls. -/
def Between (s : FileSys) : Prop := ∀ p, (s.pc p).between

theorem Between.closers_eq (h : s.Between) (fp : FilePtr) : s.closers fp = 0 := by
  unfold closers
  refine rowRefs_eq_zero_iff.mpr fun p hp => ?_
  have hout := h p
  cases hpc : s.pc p <;> rw [hpc] at hp hout <;> first | exact hout | cases hp

/-- In a run whose every step meets `Ok`, between system calls `f_count` is the number of
descriptors of the entry and no entry is allocated without a descriptor; `closef`, from `close` and
from `exit`, calls `closei` exactly when no descriptor is left; and `falloc` hands out entries
without descriptors only. -/
theorem f_count_exact {t : InodePtr → FInode} (h : Reachable step Ok (boot t) s) :
    (s.Between → ∀ fp, (s.file fp).f_count.toInt = (s.refs fp : ℤ) ∧
      ((s.file fp).f_count ≠ 0 → ∃ p i, s.u_ofile p i = some fp)) ∧
    (∀ p i fp k, s.u_ofile p i = some fp →
      ((((s.setFd p i none).closef p fp k).pc p).closes = some fp ↔
        ∀ q j, ((s.setFd p i none).closef p fp k).u_ofile q j ≠ some fp)) ∧
    (∀ p i fp s', s.falloc p = .ok (i, fp, s') → ∀ q j, s.u_ofile q j ≠ some fp) := by
  have hinv := inv_of_reachable h
  refine ⟨fun hbetween fp => ?_, fun p i fp k hold => ?_, fun p i fp s' hf => ?_⟩
  · have hint := hinv.toInt_count fp
    rw [total, hbetween.closers_eq, add_zero] at hint
    refine ⟨hint, fun hcount => ?_⟩
    by_contra hnone
    have hzero : s.refs fp = 0 := refs_eq_zero_iff.mpr fun p i hpi => hnone ⟨p, i, hpi⟩
    apply hcount
    rw [hinv.count, total, hbetween.closers_eq, hzero]
    rfl
  · exact closef_calls_iff hinv hold k
  · obtain ⟨-, hcount, -⟩ := falloc_eq hf
    have htotal := hinv.total_eq_zero hcount
    unfold total at htotal
    exact refs_eq_zero_iff.mp (by omega)

/-- The first process makes a pipe: each end has one descriptor. -/
theorem f_count_exact_pipe : ∃ s, runSteps step [.call 0 .pipe, .found 0 0] (boot fun _ => {}) = some s ∧
    s.u_ofile 0 0 = some 0 ∧ s.u_ofile 0 1 = some 1 ∧
    (s.file 0).f_count.toInt = (s.refs 0 : ℤ) ∧ (s.file 1).f_count.toInt = (s.refs 1 : ℤ) := by
  have hrun : (runSteps step [.call 0 .pipe, .found 0 0] (boot fun _ => {})).any (fun s =>
      decide ((∀ p, (s.pc p).between) ∧ s.u_ofile 0 0 = some 0 ∧ s.u_ofile 0 1 = some 1)) = true := by
    decide +kernel
  obtain ⟨s, hs, hcheck⟩ := (Option.any_eq_true _ _).mp hrun
  obtain ⟨hbetween, hread, hwrite⟩ := of_decide_eq_true hcheck
  have hreach : Reachable step Ok (boot fun _ => {}) s := by
    refine Reachable.refl.of_runSteps_ok (fun a ha s => ?_) hs
    rcases List.mem_pair.mp ha with rfl | rfl <;> trivial
  have hexact := (f_count_exact hreach).1 hbetween
  exact ⟨s, hs, hread, hwrite, (hexact 0).1, (hexact 1).1⟩

/-- A close of a terminal is interrupted while the output drains: the descriptor is gone, the entry
stays allocated. -/
theorem not_f_count_exact : ¬ ∀ (t : InodePtr → FInode) (s : FileSys),
    Reachable step (fun _ _ => True) (boot t) s → s.Between →
    ∀ fp, (s.file fp).f_count.toInt = (s.refs fp : ℤ) := by
  intro hexact
  have hrun : (runSteps step [.call 0 (.open1 { fread := true }), .found 0 0, .cont 0,
      .call 0 (.close 0), .abandon 0] (boot fun _ => { i_mode := { fmt := .chr } })).any (fun s =>
        decide ((∀ p, (s.pc p).between) ∧ (∀ p i, s.u_ofile p i ≠ some 0) ∧
          (s.file 0).f_count.toInt = 1)) = true := by
    decide +kernel
  obtain ⟨s, hs, hcheck⟩ := (Option.any_eq_true _ _).mp hrun
  obtain ⟨hbetween, hnone, hcount⟩ := of_decide_eq_true hcheck
  have hcontra := hexact _ s (Reachable.refl.of_runSteps hs) hbetween 0
  rw [hcount, refs_eq_zero_iff.mpr hnone] at hcontra
  exact absurd hcontra (by decide)

end FileSys
end UnixV6
