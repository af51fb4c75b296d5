import UnixV6.Ken.ExecImage

/-!
# How `exec` ends

A call either fails, with everything of the caller as it was, or succeeds with the new image. Four
ways out of the code do neither: a jump to `bad` that sets no error, an error of the disk (or of
`iput`) when the old image is already gone, a file shorter than a header that meets the header of an
earlier call, and a size that is taken for a negative count.
-/

open Function

namespace UnixV6

variable {f g : ExecFile} {s t s' : ExecSys} {rdy : Ready} {v : List (List Byte)}

/-! ## What a call should do -/

/-- The pages of the caller, its saved registers, signals and ids are as they were. -/
structure Unchanged (s s' : ExecSys) : Prop where
  core : ∀ x, InPages s.p_addr PSIZE x → s'.core x = s.core x
  u_sp : s'.u_sp = s.u_sp
  u_signal : s'.u_signal = s.u_signal
  u_uid : s'.u_uid = s.u_uid
  u_gid : s'.u_gid = s.u_gid
  p_uid : s'.p_uid = s.p_uid

/-- The bytes of text that the file has. -/
def textLen (f : ExecFile) : ℕ := min (hdrWord f.byte 4).toNat (f.size - 32)

/-- The bytes of data that the file has. -/
def dataLen (f : ExecFile) : ℕ := min (hdrWord f.byte 6).toNat (f.size - (32 + textLen f))

/-- The process runs the program of the file: its text and data with zeros behind them, its arguments,
its entry, and caught signals are reset. -/
structure NewImage (f : ExecFile) (s s' : ExecSys) : Prop where
  size : 32 ≤ f.size
  text : ∀ a : BitVec 16, a.toNat < 8192 → segment s'.core (s.p_addr + DSIZE) a =
    if a.toNat < textLen f then f.byte (32 + a.toNat) else 0
  data : ∀ a : BitVec 16, a.toNat < s'.u_sp.toNat → segment s'.core s.p_addr a =
    if a.toNat < dataLen f then f.byte (32 + textLen f + a.toNat) else 0
  frame : StartFrame (segment s'.core s.p_addr) s'.u_sp (BitVec.ofNat 16 (segOf s.p_addr))
    (hdrWord f.byte 10)
  args : ∃ v, ArgVec s.userMem s.u_arg1 v ∧ StartStack (segment s'.core s.p_addr) s'.u_sp v
  u_signal : ∀ i, s'.u_signal i = if s.u_signal i = 1 then 1 else 0

/-- One or the other, by `u_error`, and nothing is left in hand. -/
structure Outcome (name : Except {e : ℕ // e ≠ 0} ExecFile) (s s' : ExecSys) : Prop where
  failed : s'.u_error ≠ 0 → Unchanged s s'
  done : s'.u_error = 0 → ∃ f, name = .ok f ∧ NewImage f s s'
  execnt : s'.execnt = s.execnt
  released : s'.bufHeld = false ∧ s'.inodeHeld = false

/-! ## What the outcome depends on -/

/-- The same caller, but for its text. -/
structure SameCaller (s t : ExecSys) : Prop where
  state : t = { s with core := t.core }
  core : ∀ x, ¬ InPages (s.p_addr + DSIZE) (PSIZE - DSIZE) x → t.core x = s.core x

/-- The same file on the same disk, but for what the kernel has behind its buffers. -/
structure SameFile (f g : ExecFile) : Prop where
  ip : g.ip = f.ip
  byte : g.byte = f.byte
  bn : ∀ r lbn, (g.fetch r lbn).bn = (f.fetch r lbn).bn
  err : ∀ r lbn, (g.fetch r lbn).err = (f.fetch r lbn).err
  b_addr : ∀ r lbn i, i < 512 → (g.fetch r lbn).b_addr i = (f.fetch r lbn).b_addr i
  iputErr : g.iputErr = f.iputErr

/-- The name stands for the same file, or for none. -/
def SameName : Except {e : ℕ // e ≠ 0} ExecFile → Except {e : ℕ // e ≠ 0} ExecFile → Prop
  | .ok f, .ok g => SameFile f g
  | .error e, .error e' => e = e'
  | _, _ => False

/-- The call ends as it should, whatever the text of the caller is and whatever lies behind the buffers
of the kernel. -/
def EndsWell (name : Except {e : ℕ // e ≠ 0} ExecFile) (s : ExecSys) : Prop :=
  ∀ name' t, SameName name name' → SameCaller s t → Outcome name' t (execTrap name' t)

/-! ## When it does -/

/-- The header that the checks see: that of the file, with what an earlier call has left behind it. -/
def headerOf (f : ExecFile) (s : ExecSys) : ℕ → Byte :=
  fun i => if i < min 32 f.size then f.byte i else s.u_hdr i

/-- The checks of the header. -/
def HeaderOk (u_hdr : ℕ → Byte) : Prop :=
  (hdrWord u_hdr 0 = 0x0301 ∧ hdrWord u_hdr 1 = 0x0430 ∧ hdrWord u_hdr 2 = 0x20) ∧
    (8192 : BitVec 16).sle (hdrWord u_hdr 4) = false

/-- The file has a header of its own, sizes without a sign where there is something to be read, and no
block of its text and data has an error. -/
structure Readable (f : ExecFile) : Prop where
  size : 32 ≤ f.size
  textSize : f.size ≤ 32 ∨ 0 ≤ (hdrWord f.byte 4).toInt
  dataSize : f.size ≤ 32 + textLen f ∨ 0 ≤ (hdrWord f.byte 6).toInt
  text : f.NoErr .text 32 (32 + textLen f)
  data : f.NoErr .data (32 + textLen f) (32 + textLen f + dataLen f)

/-- Nothing stands in the way of the file: it is regular, the vector fits and the header is read and
accepted. -/
structure Loads (f : ExecFile) (s : ExecSys) : Prop where
  regular : f.ip.i_mode &&& IFMT = 0
  accepted : ¬ VecRefused s.userMem s.u_arg1 0
  fits : ∃ v, ArgVec s.userMem s.u_arg1 v ∧ (strings v).length ≤ 510
  header : f.NoErr .header 0 (min 32 f.size)
  headerOk : HeaderOk (headerOf f s)

/-- The file is refused for its permissions; or `iput` leaves an error, and the file is not loaded; or
the file is regular, the vector has no byte or pointer of ones among its first 511 bytes, and if the
file is loaded it is readable. -/
def SoundFile (f : ExecFile) (s : ExecSys) : Prop :=
  f.ip.execAccess s.u_uid s.u_gid = false ∨ (f.iputErr ≠ 0 ∧ ¬ Loads f s) ∨
    (f.iputErr = 0 ∧ f.ip.i_mode &&& IFMT = 0 ∧ ¬ VecRefused s.userMem s.u_arg1 0 ∧
      (Loads f s → Readable f))

/-- Nothing is asked where no file is found. -/
def Sound : Except {e : ℕ // e ≠ 0} ExecFile → ExecSys → Prop
  | .error _, _ => True
  | .ok f, s => SoundFile f s

/-! ## Callers and files -/

theorem SameCaller.userMem (h : SameCaller s t) : t.userMem = s.userMem := by
  funext a
  have hlt := a.isLt
  have hp : t.p_addr = s.p_addr := by rw [h.state]
  unfold ExecSys.userMem segment
  rw [hp]
  refine h.core _ fun hin => ?_
  unfold InPages linear segOf DSIZE PSIZE at hin
  omega

/-- The same reads succeed. -/
theorem SameFile.noErr (h : SameFile f g) {r : ExecRead} {a b : ℕ} : g.NoErr r a b ↔ f.NoErr r a b := by
  unfold ExecFile.NoErr
  simp only [h.err]

theorem SameFile.size (h : SameFile f g) : g.size = f.size := size_eq h.ip

theorem SameFile.textLen (h : SameFile f g) : textLen g = textLen f := by
  unfold UnixV6.textLen
  rw [h.size, h.byte]

theorem SameFile.dataLen (h : SameFile f g) : dataLen g = dataLen f := by
  unfold UnixV6.dataLen
  rw [h.size, h.byte, h.textLen]

theorem SameFile.readable (h : SameFile f g) (hf : Readable f) : Readable g where
  size := by
    rw [h.size]
    exact hf.size
  textSize := by
    rw [h.size, h.byte]
    exact hf.textSize
  dataSize := by
    rw [h.size, h.textLen, h.byte]
    exact hf.dataSize
  text := by
    rw [h.noErr, h.textLen]
    exact hf.text
  data := by
    rw [h.noErr, h.textLen, h.dataLen]
    exact hf.data

/-- One call loads its file if the other does. -/
theorem Loads.of_same (hsame : SameFile f g) (hcaller : SameCaller s t) : Loads g t ↔ Loads f s := by
  have hstate := hcaller.state
  have harg : t.u_arg1 = s.u_arg1 := by rw [hstate]
  have hhdr : headerOf g t = headerOf f s := by
    unfold headerOf
    rw [hsame.size, hsame.byte, hstate]
  constructor
  · rintro ⟨hreg, hno, hv, herr, hok⟩
    rw [hcaller.userMem, harg] at hno hv
    rw [hsame.noErr, hsame.size] at herr
    rw [hhdr] at hok
    rw [hsame.ip] at hreg
    exact ⟨hreg, hno, hv, herr, hok⟩
  · rintro ⟨hreg, hno, hv, herr, hok⟩
    rw [← hcaller.userMem, ← harg] at hno hv
    rw [← hsame.noErr, ← hsame.size] at herr
    rw [← hhdr] at hok
    rw [← hsame.ip] at hreg
    exact ⟨hreg, hno, hv, herr, hok⟩

/-- A transfer moves the offset by no more than its count. -/
theorem readi_offset {r : ExecRead} {u : IoArgs} (hoff : u.u_offset.toNat < 2 ^ 30) :
    (f.readi r u).2.u_offset.toNat < 2 ^ 31 := by
  have hcnt := u.u_count.isLt
  rcases le_or_gt 0 u.u_count.toInt with hpos | hneg
  · obtain ⟨k, val, hdone⟩ := f.readi_done (r := r) hpos (by omega)
    have hk : k ≤ u.u_count.toNat := hdone.le.trans (min_le_left _ _)
    rw [hdone.u_offset, BitVec.toNat_add, BitVec.toNat_ofNat]
    omega
  · rcases le_or_gt f.size u.u_offset.toNat with hend | hin
    · rw [ExecFile.readi_end (by omega) hend]
      show u.u_offset.toNat < _
      omega
    · rw [ExecFile.readi_neg hneg hin]
      have hsize := f.size_lt
      split
      · show (u.setError _).u_offset.toNat < _
        rw [ExecFile.setError_u_offset]
        omega
      · rw [IoArgs.advance_offset (by rw [ExecFile.setError_u_offset]; omega),
          ExecFile.setError_u_offset]
        omega

/-- An error stays. -/
theorem readi_keep {r : ExecRead} {u : IoArgs} (hoff : u.u_offset.toNat < 2 ^ 31)
    (h : (f.readi r u).2.u_error = 0) : u.u_error = 0 := by
  rcases le_or_gt 0 u.u_count.toInt with hpos | hneg
  · obtain ⟨k, val, hdone⟩ := f.readi_done (r := r) hpos hoff
    exact hdone.keep h
  · rcases le_or_gt f.size u.u_offset.toNat with hend | hin
    · rwa [ExecFile.readi_end hoff hend] at h
    · rw [ExecFile.readi_neg hneg hin] at h
      split at h
      · exact ((ExecFile.setError_u_error _).mp h).1
      · exact ((ExecFile.setError_u_error _).mp h).1

/-- The transfer is described by its length where its count has no sign or nothing is left. -/
theorem readi_done_of {r : ExecRead} {u : IoArgs} (hoff : u.u_offset.toNat < 2 ^ 31)
    (h : f.size ≤ u.u_offset.toNat ∨ 0 ≤ u.u_count.toInt) :
    ∃ k val, ExecFile.Done f r u (f.readi r u) k val := by
  rcases h with hend | hpos
  · rw [ExecFile.readi_end hoff hend]
    refine ⟨0, _, ExecFile.Done.none ?_⟩
    unfold ExecFile.available
    omega
  · exact f.readi_done hpos hoff

namespace Through

variable (h : Through f s s' rdy v)
include h

/-- The text begins behind the header. -/
theorem textArgs_offset (hsize : 32 ≤ f.size) : (rdy.textArgs s'.u_hdr).u_offset.toNat = 32 := by
  show rdy.u.u_offset.toNat = 32
  rw [h.u_offset.1]
  exact min_eq_left hsize

/-- The text is read as far as it goes. -/
theorem textArgs_available (hsize : 32 ≤ f.size) :
    f.available (rdy.textArgs s'.u_hdr) = textLen f := by
  unfold ExecFile.available textLen
  rw [h.textArgs_offset hsize]
  show min (hdrWord s'.u_hdr 4).toNat _ = _
  rw [h.header hsize (by decide)]

/-- An error of the text is seen at the end. -/
theorem text_u_error (herr : (rdy.data f s'.u_hdr).2.u_error = 0) :
    (rdy.text f s'.u_hdr).2.u_error = 0 := by
  have hoff : (rdy.dataArgs f s'.u_hdr).u_offset.toNat < 2 ^ 31 := by
    refine readi_offset ?_
    show rdy.u.u_offset.toNat < _
    rw [h.u_offset.1]
    omega
  exact readi_keep (u := rdy.dataArgs f s'.u_hdr) hoff herr

/-- The text, where it is read by length. -/
theorem text_done (hsize : 32 ≤ f.size)
    (hpos : f.size ≤ 32 ∨ 0 ≤ (hdrWord f.byte 4).toInt) :
    ∃ k val, ExecFile.Done f .text (rdy.textArgs s'.u_hdr) (rdy.text f s'.u_hdr) k val := by
  have hoff := h.textArgs_offset hsize
  refine readi_done_of (by omega) (hpos.imp (fun hle => by omega) fun hpos => ?_)
  show 0 ≤ (hdrWord s'.u_hdr 4).toInt
  rwa [h.header hsize (by decide)]

/-- The checks of the header have been passed. -/
theorem headerOk : HeaderOk (headerOf f s) := by
  have hhdr : ∀ i < 32, headerOf f s i = s'.u_hdr i := by
    intro i hi
    obtain ⟨herr, -⟩ | ⟨-, -, hst, -⟩ := readHeader_cases f
    · exact absurd h.err herr
    · rw [h.state]
      show _ = storeHdr s.u_hdr (readHeader f 0).1 i
      rw [hst, storeHdr_bytesAt (by omega)]
      rfl
  have hword := fun i (hi : i < 16) => hdrWord_congr hhdr hi
  unfold HeaderOk
  rw [hword 0 (by decide), hword 1 (by decide), hword 2 (by decide), hword 4 (by decide)]
  exact ⟨h.magic, h.fits⟩

/-- Without an error the text is complete, and the offset stands behind it. -/
theorem text_ok (hsize : 32 ≤ f.size) (hpos : f.size ≤ 32 ∨ 0 ≤ (hdrWord f.byte 4).toInt)
    (herr : (rdy.text f s'.u_hdr).2.u_error = 0) :
    f.NoErr .text 32 (32 + textLen f) ∧
      (rdy.text f s'.u_hdr).1 = bytesAt 0 (textLen f) (fun i => f.byte (32 + i)) ∧
      (rdy.dataArgs f s'.u_hdr).u_offset.toNat = 32 + textLen f := by
  obtain ⟨k, val, hdone⟩ := h.text_done hsize hpos
  have hoff := h.textArgs_offset hsize
  have hav := h.textArgs_available hsize
  have hk : k = textLen f := (hdone.full herr).trans hav
  have hno := (hdone.err h.u_error).mp herr
  rw [hoff, hav] at hno
  refine ⟨hno, ?_, ?_⟩
  · rw [← hk]
    refine hdone.stores.trans (List.map_congr_left fun i hi => ?_)
    rw [hdone.bytes herr i (List.mem_range.mp hi), hoff]
    rfl
  · have hlt := f.size_lt
    have hle : textLen f ≤ f.size - 32 := min_le_right _ _
    show (rdy.text f s'.u_hdr).2.u_offset.toNat = _
    rw [hdone.u_offset, hk]
    bv_omega

/-- The data, where they are read by length. -/
theorem data_done (hsize : 32 ≤ f.size) (hpos : f.size ≤ 32 ∨ 0 ≤ (hdrWord f.byte 4).toInt)
    (hpos' : f.size ≤ 32 + textLen f ∨ 0 ≤ (hdrWord f.byte 6).toInt)
    (hterr : (rdy.text f s'.u_hdr).2.u_error = 0) :
    f.available (rdy.dataArgs f s'.u_hdr) = dataLen f ∧
      ∃ k val, ExecFile.Done f .data (rdy.dataArgs f s'.u_hdr) (rdy.data f s'.u_hdr) k val := by
  obtain ⟨-, -, hoff⟩ := h.text_ok hsize hpos hterr
  have hlt := f.size_lt
  have hle : textLen f ≤ f.size - 32 := min_le_right _ _
  refine ⟨?_, readi_done_of (by omega) (hpos'.imp (fun hle => by omega) fun hpos => ?_)⟩
  · unfold ExecFile.available dataLen
    rw [hoff]
    show min (hdrWord s'.u_hdr 6).toNat _ = _
    rw [h.header hsize (by decide)]
  · show 0 ≤ (hdrWord s'.u_hdr 6).toInt
    rwa [h.header hsize (by decide)]

/-- So are the data. -/
theorem data_ok (hsize : 32 ≤ f.size) (hpos : f.size ≤ 32 ∨ 0 ≤ (hdrWord f.byte 4).toInt)
    (hpos' : f.size ≤ 32 + textLen f ∨ 0 ≤ (hdrWord f.byte 6).toInt)
    (hterr : (rdy.text f s'.u_hdr).2.u_error = 0) (herr : (rdy.data f s'.u_hdr).2.u_error = 0) :
    f.NoErr .data (32 + textLen f) (32 + textLen f + dataLen f) ∧
      (rdy.data f s'.u_hdr).1 =
        bytesAt 0 (dataLen f) (fun i => f.byte (32 + textLen f + i)) := by
  obtain ⟨-, -, hoff⟩ := h.text_ok hsize hpos hterr
  obtain ⟨hav, k, val, hdone⟩ := h.data_done hsize hpos hpos' hterr
  have hk : k = dataLen f := (hdone.full herr).trans hav
  have hno := (hdone.err hterr).mp herr
  rw [hoff, hav] at hno
  refine ⟨hno, ?_⟩
  rw [← hk]
  refine hdone.stores.trans (List.map_congr_left fun i hi => ?_)
  rw [hdone.bytes herr i (List.mem_range.mp hi), hoff]
  rfl

/-- A readable file is read without an error. -/
theorem read_ok (hread : Readable f) :
    (rdy.text f s'.u_hdr).2.u_error = 0 ∧ (rdy.data f s'.u_hdr).2.u_error = 0 := by
  have hsize := hread.size
  obtain ⟨k, val, htext⟩ := h.text_done hsize hread.textSize
  have hterr : (rdy.text f s'.u_hdr).2.u_error = 0 := by
    refine (htext.err h.u_error).mpr ?_
    rw [h.textArgs_offset hsize, h.textArgs_available hsize]
    exact hread.text
  obtain ⟨hav, k', val', hdata⟩ := h.data_done hsize hread.textSize hread.dataSize hterr
  refine ⟨hterr, (hdata.err hterr).mpr ?_⟩
  rw [(h.text_ok hsize hread.textSize hterr).2.2, hav]
  exact hread.data

end Through

/-! ## The image -/

/-- Stores do not look at the memory. -/
theorem storeMem_congr {st : List Store} {mem mem' : Mem} {a : BitVec 16} (h : mem a = mem' a) :
    storeMem st mem a = storeMem st mem' a := by
  induction st generalizing mem mem' with
  | nil => exact h
  | cons x st ih =>
    refine ih ?_
    show update mem x.1 x.2 a = update mem' x.1 x.2 a
    rw [update_apply, update_apply, h]

/-- The text pages of the new program. -/
theorem segment_load_text (rdy : Ready) (f : ExecFile) (s : ExecSys) {a : BitVec 16}
    (ha : a.toNat < 8192) :
    segment (rdy.load f s).core (s.p_addr + DSIZE) a =
      storeMem (rdy.text f s.u_hdr).1 (fun _ => 0) a := by
  have hcore : (rdy.load f s).core = storeAll s.p_addr (rdy.stack s.p_addr s.u_hdr)
      (storeAll s.p_addr (rdy.data f s.u_hdr).1
        (storeAll (s.p_addr + DSIZE) (rdy.text f s.u_hdr).1 (clearPages s.p_addr s.core))) := by
    simp only [Ready.load]
  rw [hcore, segment_storeAll_of_lt _ _ (.inr le_rfl), segment_storeAll_of_lt _ _ (.inr le_rfl),
    segment_storeAll]
  refine storeMem_congr ?_
  unfold segment
  rw [clearPages_apply, if_pos]
  unfold linear segOf DSIZE PSIZE
  omega

/-- The data segment below the frame. -/
theorem Through.segment_data (h : Through f s s' rdy v) {a : BitVec 16}
    (ha : a.toNat < rdy.ts.toNat) :
    segment (rdy.load f s').core s'.p_addr a = storeMem (rdy.data f s'.u_hdr).1 (fun _ => 0) a := by
  rw [segment_load, (h.packed.within_stack _ _).outside (.inl ha)]

/-- A segment that is loaded into cleared memory. -/
theorem storeMem_bytesAt_zero {n : ℕ} {val : ℕ → Byte} (a : BitVec 16) (hn : n ≤ 65536) :
    storeMem (bytesAt 0 n val) (fun _ => 0) a = if a.toNat < n then val a.toNat else 0 := by
  rw [storeMem_bytesAt hn, show a - 0 = a from BitVec.sub_zero a]

/-- The error of a call is that of reading the data. -/
@[simp]
theorem load_u_error (rdy : Ready) (f : ExecFile) (s : ExecSys) :
    (rdy.load f s).u_error = (rdy.data f s.u_hdr).2.u_error := by
  simp only [Ready.load]

/-- Loading resets the signals that are caught. -/
theorem load_u_signal (rdy : Ready) (f : ExecFile) (s : ExecSys) (i : Signo) :
    (rdy.load f s).u_signal i = if s.u_signal i = 1 then 1 else 0 := by
  simp only [Ready.load, ne_eq, ite_not]
  split
  · assumption
  · rfl

section Result

variable (hprep : prepare f s.called = (s', some rdy))
include hprep

theorem execTrap_core : (execTrap (.ok f) s).core = (rdy.load f s').core := by
  rw [execTrap_of_some hprep, leave_core]

theorem execTrap_u_sp : (execTrap (.ok f) s).u_sp = rdy.ts := by
  rw [execTrap_of_some hprep, leave_u_sp, load_u_sp]

/-- A call succeeds if the data are read and the file is given back. -/
theorem execTrap_u_error : (execTrap (.ok f) s).u_error = 0 ↔
    (rdy.data f s'.u_hdr).2.u_error = 0 ∧ f.iputErr = 0 := by
  rw [execTrap_of_some hprep]
  unfold leave
  dsimp only
  rw [load_u_error]
  split
  · next h => exact (and_iff_left h).symm
  · next h => exact iff_of_false h fun h' => h h'.2

/-- The signals of a call that comes to its end. -/
theorem execTrap_u_signal (i : Signo) :
    (execTrap (.ok f) s).u_signal i = if s'.u_signal i = 1 then 1 else 0 := by
  rw [execTrap_of_some hprep]
  unfold leave
  dsimp only
  rw [load_u_signal]

end Result

/-- A readable file becomes the new image. -/
theorem Through.newImage (h : Through f s s' rdy v) (hprep : prepare f s.called = (s', some rdy))
    (hread : Readable f) : NewImage f s (execTrap (.ok f) s) := by
  have hsize := hread.size
  have hp := h.p_addr
  obtain ⟨hterr, hderr⟩ := h.read_ok hread
  obtain ⟨-, htext, -⟩ := h.text_ok hsize hread.textSize hterr
  obtain ⟨-, hdata⟩ := h.data_ok hsize hread.textSize hread.dataSize hterr hderr
  have hlt := f.size_lt
  have htle : textLen f ≤ 65536 := (min_le_left _ _).trans (BitVec.isLt _).le
  have hdle : dataLen f ≤ 65536 := (min_le_left _ _).trans (BitVec.isLt _).le
  have hcore := execTrap_core hprep
  have hsp := execTrap_u_sp hprep
  refine ⟨hsize, fun a ha => ?_, fun a ha => ?_, ?_, ⟨v, h.argVec, ?_⟩, fun i => ?_⟩
  · rw [hcore, ← hp, segment_load_text _ _ _ ha, htext, storeMem_bytesAt_zero a htle]
  · rw [hsp] at ha
    rw [hcore, ← hp, h.segment_data ha, hdata, storeMem_bytesAt_zero a hdle]
  · rw [hcore, hsp, ← hp, segment_load, ← h.header hsize (by decide)]
    exact h.packed.startFrame _ _ _
  · rw [hcore, hsp, ← hp, segment_load]
    exact h.packed.startStack _ _ _
  · rw [execTrap_u_signal hprep, h.state]
    rfl

/-! ## Sound calls end well -/

theorem SameFile.refl (f : ExecFile) : SameFile f f :=
  ⟨rfl, rfl, fun _ _ => rfl, fun _ _ => rfl, fun _ _ _ _ => rfl, rfl⟩

theorem SameCaller.refl (s : ExecSys) : SameCaller s s := ⟨rfl, fun _ _ => rfl⟩

/-- The caller with another first byte of text. -/
def retext (s : ExecSys) (w : Byte) : ExecSys :=
  { s with core := update s.core ((s.p_addr + DSIZE) * 4096) w }

theorem sameCaller_retext (s : ExecSys) (w : Byte) : SameCaller s (retext s w) where
  state := rfl
  core := by
    intro x hx
    refine update_of_ne ?_ _ _
    rintro rfl
    unfold InPages DSIZE PSIZE at hx
    omega

/-- The first byte of text is the other one. -/
theorem retext_core (s : ExecSys) (w : Byte) :
    segment (retext s w).core (s.p_addr + DSIZE) 0 = w := by
  have haddr : linear (0 : BitVec 16).toNat (segOf (s.p_addr + DSIZE)) = (s.p_addr + DSIZE) * 4096 := by
    show linear 0 _ = _
    unfold linear segOf
    omega
  unfold segment
  rw [haddr]
  exact update_self _ _ _

/-- The kernel has `w` behind all of its buffers. -/
def ExecFile.behind (f : ExecFile) (w : Byte) : ExecFile where
  ip := f.ip
  byte := f.byte
  fetch := fun r lbn => { f.fetch r lbn with
    b_addr := fun i => if i < 512 then (f.fetch r lbn).b_addr i else w }
  iputErr := f.iputErr
  err_of_missing := f.err_of_missing
  delivered := by
    intro r lbn i h hi
    dsimp only
    rw [if_pos hi]
    exact f.delivered r lbn i h hi

theorem sameFile_behind (f : ExecFile) (w : Byte) : SameFile f (f.behind w) where
  ip := rfl
  byte := rfl
  bn := fun _ _ => rfl
  err := fun _ _ => rfl
  b_addr := fun _ _ _ hi => if_pos hi
  iputErr := rfl

/-- A byte that is not `b`. -/
theorem add_one_ne (b : Byte) : b + 1 ≠ b := by bv_omega

/-- The checks are passed by every caller that is the same. -/
theorem Through.recaller (h : Through f s s' rdy v) (hc : SameCaller s t) :
    ∃ t', prepare f t.called = (t', some rdy) ∧ t'.u_hdr = s'.u_hdr ∧ Through f t t' rdy v := by
  have hstate := hc.state
  have huid : t.u_uid = s.u_uid := by rw [hstate]
  have hgid : t.u_gid = s.u_gid := by rw [hstate]
  have harg : t.u_arg1 = s.u_arg1 := by rw [hstate]
  have hhdr : t.u_hdr = s.u_hdr := by rw [hstate]
  have haccess := h.access
  have hvec := h.argVec
  have hacc := h.accepted
  rw [← huid, ← hgid] at haccess
  rw [← hc.userMem, ← harg] at hvec hacc
  have hrdy : rdy = ⟨v.length, padded (strings v), (readHeader f 0).2⟩ := by
    rw [← h.u, ← h.packed.na, ← h.packed.packed]
  have hu_hdr : s'.u_hdr = storeHdr t.u_hdr (readHeader f 0).1 := by
    rw [h.state, hhdr]
  -- all earlier exits are those of a caller that differs
  obtain ⟨hno, -⟩ | ⟨-, hno, -⟩ | ⟨-, -, ⟨hyes, -⟩ | ⟨-, hall, -⟩ | ⟨v', -, hv', -, heq⟩⟩ :=
    prepare_cases f t
  · exact absurd (hno.symm.trans haccess) Bool.false_ne_true
  · exact absurd h.regular hno
  · exact absurd hyes hacc
  · exact absurd (hall v hvec) (not_lt.mpr h.packed.le)
  · -- the same arguments and the same header pass the same checks
    obtain rfl := hvec.unique hv'
    have hmagic := h.magic
    have hfits := h.fits
    rw [hu_hdr] at hmagic hfits
    have hprep := heq.trans (checkHeader_ok h.err hmagic hfits)
    rw [← hrdy] at hprep
    obtain ⟨v', h'⟩ := through_of_some hprep
    obtain rfl := hvec.unique h'.argVec
    exact ⟨_, hprep, hu_hdr.symm, h'⟩

/-- Once the old image is gone there must not be an error. -/
theorem Through.data_u_error (h : Through g s s' rdy v) (hends : EndsWell (.ok f) s)
    (hsame : SameFile f g) : (rdy.data g s'.u_hdr).2.u_error = 0 ∧ g.iputErr = 0 := by
  by_contra herr
  generalize hw : storeMem (rdy.text g s'.u_hdr).1 (fun _ => 0) 0 = w
  have hc := sameCaller_retext s (w + 1)
  obtain ⟨t', hprep, hhdr, h'⟩ := h.recaller hc
  have hout := hends (.ok g) _ hsame hc
  have hun := hout.failed (by rwa [ne_eq, execTrap_u_error hprep, hhdr])
  have hcore : segment (execTrap (.ok g) (retext s (w + 1))).core (s.p_addr + DSIZE) 0 = w := by
    have hp : t'.p_addr = s.p_addr := h'.p_addr
    rw [execTrap_core hprep, ← hp, segment_load_text _ _ _ (by decide), hhdr, hw]
  have hkeep : segment (execTrap (.ok g) (retext s (w + 1))).core (s.p_addr + DSIZE) 0 = w + 1 := by
    refine Eq.trans (hun.core _ ?_) (retext_core s (w + 1))
    show InPages s.p_addr PSIZE (linear 0 _)
    unfold InPages linear segOf DSIZE PSIZE
    omega
  exact add_one_ne w (hkeep.symm.trans hcore)

/-- Nor may it be anything but the image of the file. -/
theorem Through.image (h : Through g s s' rdy v) (hprep : prepare g s.called = (s', some rdy))
    (hends : EndsWell (.ok f) s) (hsame : SameFile f g) : NewImage g s (execTrap (.ok g) s) := by
  have hout := hends (.ok g) _ hsame (SameCaller.refl s)
  obtain ⟨g', hg', himage⟩ := hout.done ((execTrap_u_error hprep).mpr (h.data_u_error hends hsame))
  obtain rfl := Except.ok.inj hg'
  exact himage

/-- The call with another kernel behind its buffers. -/
theorem Through.behind (h : Through f s s' rdy v) (w : Byte) :
    ∃ rdy', prepare (f.behind w) s.called = (s', some rdy') ∧
      Through (f.behind w) s s' rdy' v := by
  obtain ⟨rdy', hprep, -, h'⟩ := h.transfer (g := f.behind w) rfl rfl h.u_offset.2
  exact ⟨rdy', hprep, h'⟩

/-- What a negative count stores, if there is no error. -/
theorem readi_neg_stores {f : ExecFile} {r : ExecRead} {u : IoArgs} (hneg : u.u_count.toInt < 0)
    (hin : u.u_offset.toNat < f.size) (herr : (f.readi r u).2.u_error = 0) :
    (f.readi r u).1 = bytesAt u.u_base u.u_count.toNat (f.fromBuf r u) := by
  rw [ExecFile.readi_neg hneg hin] at herr ⊢
  split at herr
  · next hbn => exact absurd ((ExecFile.setError_u_error _).mp herr).2 (f.err_of_missing r _ hbn)
  · next hbn => rw [if_neg hbn]

/-- A byte that a negative count takes from behind the buffer. -/
theorem storeMem_behind {r : ExecRead} {u : IoArgs} {a : BitVec 16} {w : Byte}
    (hneg : u.u_count.toInt < 0) (hin : u.u_offset.toNat < f.size) (hbase : u.u_base = 0)
    (herr : ((f.behind w).readi r u).2.u_error = 0) (ha : a.toNat < 32768)
    (hbehind : 512 ≤ u.u_offset.toNat % 512 + a.toNat) :
    storeMem ((f.behind w).readi r u).1 (fun _ => 0) a = w := by
  have hlt : a.toNat < u.u_count.toNat := by
    rw [BitVec.toInt_eq_toNat_cond] at hneg
    split at hneg <;> omega
  have hin' : u.u_offset.toNat < (f.behind w).size := hin
  rw [readi_neg_stores hneg hin' herr, hbase, storeMem_bytesAt_zero a (BitVec.isLt _).le, if_pos hlt]
  show (if _ < 512 then _ else w) = w
  exact if_neg (not_lt.mpr hbehind)

/-- The text size has no sign, where there is text. -/
theorem Through.textSize (h : Through f s s' rdy v) (hends : EndsWell (.ok f) s)
    (hsize : 32 ≤ f.size) : f.size ≤ 32 ∨ 0 ≤ (hdrWord f.byte 4).toInt := by
  by_contra hnot
  obtain ⟨hbig, hneg⟩ := not_or.mp hnot
  -- The 480 bytes behind the header fill the buffer; the next one is the kernel's.
  generalize hw : (if 480 < textLen f then f.byte (32 + 480) else 0) = w
  obtain ⟨rdy', hprep, h'⟩ := h.behind (w + 1)
  have hsame := sameFile_behind f (w + 1)
  have hoff := h'.textArgs_offset hsize
  have hterr := h'.text_u_error (h'.data_u_error hends hsame).1
  have himage := (h'.image hprep hends hsame).text 480 (by decide)
  have hneg' : (rdy'.textArgs s'.u_hdr).u_count.toInt < 0 := by
    show (hdrWord s'.u_hdr 4).toInt < 0
    rw [h'.header hsize (by decide)]
    exact not_le.mp hneg
  have hval : storeMem (rdy'.text (f.behind (w + 1)) s'.u_hdr).1 (fun _ => 0) 480 = w + 1 := by
    refine storeMem_behind hneg' ?_ rfl hterr (by decide) ?_
    · omega
    · rw [hoff]
      decide
  rw [execTrap_core hprep, ← h'.p_addr, segment_load_text _ _ _ (by decide), hval] at himage
  exact add_one_ne w (himage.trans hw)

/-- The data size has no sign, where there are data. -/
theorem Through.dataSize (h : Through f s s' rdy v) (hends : EndsWell (.ok f) s)
    (hsize : 32 ≤ f.size) : f.size ≤ 32 + textLen f ∨ 0 ≤ (hdrWord f.byte 6).toInt := by
  by_contra hnot
  obtain ⟨hbig, hneg⟩ := not_or.mp hnot
  -- 512 bytes on, the buffer is left behind.
  generalize hw : (if 512 < dataLen f then f.byte (32 + textLen f + 512) else 0) = w
  obtain ⟨rdy', hprep, h'⟩ := h.behind (w + 1)
  have hsame := sameFile_behind f (w + 1)
  have hderr := (h'.data_u_error hends hsame).1
  have hterr := h'.text_u_error hderr
  have hoff : (rdy'.dataArgs (f.behind (w + 1)) s'.u_hdr).u_offset.toNat = 32 + textLen f :=
    (h'.text_ok hsize (h.textSize hends hsize) hterr).2.2
  have hsp : (512 : BitVec 16).toNat < rdy'.ts.toNat := by
    show 512 < _
    have hts := h'.ts
    have hle := h'.packed.le
    have hlen := length_le_strings v
    unfold USTACK at hts
    omega
  have himage := (h'.image hprep hends hsame).data 512 (by rw [execTrap_u_sp hprep]; exact hsp)
  have hneg' : (rdy'.dataArgs (f.behind (w + 1)) s'.u_hdr).u_count.toInt < 0 := by
    show (hdrWord s'.u_hdr 6).toInt < 0
    rw [h'.header hsize (by decide)]
    exact not_le.mp hneg
  have hval : storeMem (rdy'.data (f.behind (w + 1)) s'.u_hdr).1 (fun _ => 0) 512 = w + 1 := by
    refine storeMem_behind hneg' ?_ rfl hderr (by decide) ?_
    · omega
    · show 512 ≤ _ % 512 + 512
      omega
  rw [execTrap_core hprep, ← h'.p_addr, h'.segment_data hsp, hval] at himage
  exact add_one_ne w (himage.trans hw)

/-- A call that gets through and ends well has read a readable file. -/
theorem Through.readable (h : Through f s s' rdy v) (hprep : prepare f s.called = (s', some rdy))
    (hends : EndsWell (.ok f) s) : Readable f := by
  have hsize := (h.image hprep hends (SameFile.refl f)).size
  have hderr := (h.data_u_error hends (SameFile.refl f)).1
  have hterr := h.text_u_error hderr
  have htext := h.textSize hends hsize
  have hdata := h.dataSize hends hsize
  exact ⟨hsize, htext, hdata, (h.text_ok hsize htext hterr).1,
    (h.data_ok hsize htext hdata hterr hderr).1⟩

end UnixV6
