import UnixV6.Ken.Pipe
import UnixV6.Lib.Run

/-!
# Transfers (`ken/rdwri.c`, `rdwr` of `ken/sys2.c`, `readp` and `writep` of `ken/pipe.c`)

Any number of processes in `read` and `write` calls on regular files, directories, block special
files and pipes, with any 16-bit count. A turn of the loops of `readi` and `writei` is one step: what
`bmap` and `bread` come back with, and which user addresses are valid, is the environment's choice.
The sizes of files are part of the state, since other calls change them while a transfer sleeps.
-/

open Function

namespace UnixV6

def EFAULT : ℕ := 106
def EFBIG : ℕ := 27

/-- `min` of two integers. -/
def smin (a b : BitVec 16) : BitVec 16 := if a.slt b then a else b

/-- The arguments of a transfer in the u area; `u_offset` has both words. -/
structure IoArgs where
  u_base : BitVec 16
  u_count : BitVec 16
  u_offset : BitVec 32
  u_error : ℕ
  deriving DecidableEq, Repr

/-- What a turn of the loop meets: the block that `bmap` finds or allocates, or 0, the error that
`bmap` or `bread` leaves, or 0, and the user addresses that `subyte` refuses. -/
structure Env where
  bn : BitVec 16
  err : ℕ
  fault : BitVec 16 → Bool

/-- A call of `iomove`, with what it touches: places from `b_addr` on, and their user addresses. -/
structure Move where
  o : BitVec 16
  an : BitVec 16
  touched : List (ℤ × BitVec 16)

namespace IoArgs

/-- What `passc` and `cpass` do to the arguments. -/
def pass (u : IoArgs) : IoArgs :=
  { u with u_count := u.u_count - 1, u_offset := u.u_offset + 1, u_base := u.u_base + 1 }

/-- The two loops of `iomove`, with what is left of `n` and of the buffer. -/
def iomoveLoop (write : Bool) (fault : BitVec 16 → Bool) :
    ℕ → ℤ → IoArgs → List (ℤ × BitVec 16) × IoArgs
  | 0, _, u => ([], u)
  | n + 1, cp, u =>
    if write then
      if u.u_count = 0 then ([], u)
      else
        let r := iomoveLoop write fault n (cp + 1) u.pass
        ((cp, u.u_base) :: r.1, r.2)
    else if fault u.u_base then ([(cp, u.u_base)], { u with u_error := EFAULT })
    else if u.pass.u_count = 0 then ([(cp, u.u_base)], u.pass)
    else
      let r := iomoveLoop write fault n (cp + 1) u.pass
      ((cp, u.u_base) :: r.1, r.2)

/-- `iomove`. The loops are `while(n--)`: a negative number runs round through the unsigned ones. -/
def iomove (write : Bool) (fault : BitVec 16 → Bool) (o an : BitVec 16) (u : IoArgs) :
    Move × IoArgs :=
  let r := iomoveLoop write fault an.toNat o.toInt u
  (⟨o, an, r.1⟩, r.2)

/-- The logical block: `lshift(u.u_offset, -9)`, an `int`. -/
def lbn (u : IoArgs) : BitVec 16 := (u.u_offset.sshiftRight 9).setWidth 16

/-- The offset in the block: `u.u_offset[1] & 0777`. -/
def o (u : IoArgs) : BitVec 16 := u.u_offset.setWidth 16 &&& 0x1ff

/-- `min(512-on, u.u_count)`. -/
def chunk (u : IoArgs) : BitVec 16 := smin (512 - u.o) u.u_count

/-- `bmap`: a block number whose sign bit is set is refused. -/
def bmap (e : Env) (u : IoArgs) : BitVec 16 × ℕ := if u.lbn.msb then (0, EFBIG) else (e.bn, e.err)

/-- An error that is left in `u_error`. -/
def setError (u : IoArgs) (err : ℕ) : IoArgs := if err = 0 then u else { u with u_error := err }

end IoArgs

/-- `dpcmp`: the difference of two long integers, cut to -512..512. -/
def dpcmp (x y : BitVec 32) : BitVec 16 :=
  let diff := x - y
  if (512 : BitVec 32).slt diff then 512
  else if diff.slt (-512) then -512
  else diff.setWidth 16

/-- What a name stands for; a directory is a file here. -/
inductive FKind
  | file | blk | pipe
  deriving DecidableEq, Repr

namespace IoArgs

/-- A turn of the loop of `readi`: the call of `iomove`, if it gets there. -/
def readi (k : FKind) (i_size : BitVec 24) (e : Env) (u : IoArgs) : Option Move × IoArgs :=
  if k = .blk then
    let (mv, u) := (u.setError e.err).iomove false e.fault u.o u.chunk
    (some mv, u)
  else
    let dn := dpcmp (i_size.setWidth 32) u.u_offset
    if dn.sle 0 then (none, u)
    else
      let (bn, err) := u.bmap e
      if bn = 0 then (none, u.setError err)
      else
        let (mv, u) := (u.setError err).iomove false e.fault u.o (smin u.chunk dn)
        (some mv, u)

/-- A turn of the loop of `writei`. -/
def writei (k : FKind) (e : Env) (u : IoArgs) : Option Move × IoArgs :=
  if k = .blk then
    let (mv, u) := (u.setError e.err).iomove true e.fault u.o u.chunk
    (some mv, u)
  else
    let (bn, err) := u.bmap e
    if bn = 0 then (none, u.setError err)
    else
      let (mv, u) := (u.setError err).iomove true e.fault u.o u.chunk
      (some mv, u)

/-- The size after a turn of `writei` that has moved something. -/
def grow (k : FKind) (i_size : BitVec 24) (u : IoArgs) : BitVec 24 :=
  if k ≠ .blk ∧ (dpcmp (i_size.setWidth 32) u.u_offset).slt 0 then u.u_offset.setWidth 24
  else i_size

end IoArgs

/-! ## Arithmetic -/

theorem smin_toInt (a b : BitVec 16) : (smin a b).toInt = min a.toInt b.toInt := by
  unfold smin
  by_cases h : a.slt b
  · rw [if_pos h, min_eq_left (BitVec.slt_iff_toInt_lt.mp h).le]
  · rw [if_neg h, min_eq_right (le_of_not_gt fun hlt => h (BitVec.slt_iff_toInt_lt.mpr hlt))]

/-- A size is no negative number. -/
theorem size_toInt (i_size : BitVec 24) :
    (i_size.setWidth 32 : BitVec 32).toInt = i_size.toNat := by
  have hlt := i_size.isLt
  rw [BitVec.toInt_eq_toNat_cond, BitVec.toNat_setWidth]
  omega

/-- `dpcmp` is the difference, cut at 512 in either direction. -/
theorem dpcmp_toInt (x y : BitVec 32) :
    (dpcmp x y).toInt = max (-512) (min 512 (x - y).toInt) := by
  unfold dpcmp
  simp only [BitVec.slt_iff_toInt_lt]
  have h512 : (512 : BitVec 32).toInt = 512 := by decide
  have hneg : (-512 : BitVec 32).toInt = -512 := by decide
  rw [h512, hneg]
  split
  · have hval : (512 : BitVec 16).toInt = 512 := by decide
    omega
  · split
    · have hval : (-512 : BitVec 16).toInt = -512 := by decide
      omega
    · have hval : ((x - y).setWidth 16 : BitVec 16).toInt = (x - y).toInt := by
        rw [BitVec.toInt_setWidth, BitVec.toInt_eq_toNat_cond, Int.bmod_def]
        have hcond := BitVec.toInt_eq_toNat_cond (x - y)
        have hlt := (x - y).isLt
        split at hcond <;> omega
      omega

/-- The difference is right as long as it counts. -/
theorem dpcmp_le {i_size : BitVec 24} {off : BitVec 32}
    (h : 0 < (dpcmp (i_size.setWidth 32) off).toInt) :
    (dpcmp (i_size.setWidth 32) off).toInt ≤ i_size.toNat - off.toInt := by
  rw [dpcmp_toInt] at h ⊢
  have hsize := i_size.isLt
  have hlt := off.toInt_lt
  have hle := off.le_toInt
  rw [BitVec.toInt_sub, size_toInt, Int.bmod_def] at h ⊢
  simp only [Nat.reducePow, Nat.cast_ofNat, Nat.add_one_sub_one] at h hlt hle ⊢
  omega

/-- The room in a pipe that is not full. -/
theorem room_toInt {size1 : BitVec 16} (hle : size1.toNat ≤ 4096) (hne : size1 ≠ 4096) :
    0 < (4096 - size1).toInt ∧ (4096 - size1).toInt = 4096 - size1.toNat := by
  have hlt : size1.toNat < 4096 := by bv_omega
  have h4096 : (4096 : BitVec 16).toInt = 4096 := by decide
  have hsize : size1.toInt = size1.toNat := by
    rw [BitVec.toInt_eq_toNat_cond]
    omega
  rw [BitVec.toInt_sub, h4096, hsize, Int.bmod_def]
  omega

/-- What is left of a count is not negative. -/
theorem sub_smin_nonneg {c r : BitVec 16} (hr : 0 < r.toInt) (hc : 0 ≤ c.toInt) :
    0 ≤ (c - smin c r).toInt := by
  have hlt := c.toInt_lt
  simp only [Nat.add_one_sub_one] at hlt
  rw [BitVec.toInt_sub, smin_toInt, Int.bmod_def]
  omega

/-- A number that is not negative has the same value unsigned. -/
theorem toNat_of_toInt_nonneg {x : BitVec 16} (h : 0 ≤ x.toInt) : (x.toNat : ℤ) = x.toInt := by
  rw [BitVec.toInt_eq_toNat_cond] at h ⊢
  have hlt := x.isLt
  split <;> omega

namespace IoArgs

variable {u : IoArgs}

theorem o_toNat (u : IoArgs) : u.o.toNat = u.u_offset.toNat % 512 := by
  unfold o
  rw [BitVec.toNat_and, BitVec.toNat_setWidth]
  show u.u_offset.toNat % 2 ^ 16 &&& (2 ^ 9 - 1) = u.u_offset.toNat % 512
  rw [Nat.and_two_pow_sub_one_eq_mod]
  omega

theorem o_lt (u : IoArgs) : u.o.toNat < 512 := by
  rw [o_toNat]
  omega

theorem o_toInt (u : IoArgs) : u.o.toInt = u.o.toNat := by
  have hlt := o_lt u
  rw [BitVec.toInt_eq_toNat_cond]
  omega

/-- The chunk of a turn: the rest of the block, or of the count as a signed number. -/
theorem chunk_toInt (u : IoArgs) : u.chunk.toInt = min (512 - u.o.toNat : ℤ) u.u_count.toInt := by
  have hlt := o_lt u
  have hsub : (512 - u.o : BitVec 16).toInt = 512 - u.o.toNat := by
    have h512 : (512 : BitVec 16).toInt = 512 := by decide
    rw [BitVec.toInt_sub, h512, o_toInt, Int.bmod_def]
    omega
  unfold chunk
  rw [smin_toInt, hsub]

/-! ## `iomove` -/

/-- The bytes that are touched lie side by side from `cp` on. -/
theorem iomoveLoop_touched (write : Bool) (fault : BitVec 16 → Bool) (n : ℕ) (cp : ℤ) (u : IoArgs) :
    ∀ x ∈ (iomoveLoop write fault n cp u).1, cp ≤ x.1 ∧ x.1 < cp + n := by
  -- the cell at `cp` first, then those behind it
  induction n generalizing cp u with
  | zero => intro x hx; cases hx
  | succ n ih =>
    have hnext : ∀ x ∈ (iomoveLoop write fault n (cp + 1) u.pass).1,
        cp ≤ x.1 ∧ x.1 < cp + (n + 1 : ℕ) := by
      intro x hx
      have hx := ih (cp + 1) u.pass x hx
      push_cast
      omega
    have hfirst : cp ≤ cp ∧ cp < cp + (n + 1 : ℕ) := by
      push_cast
      omega
    intro x hx
    unfold iomoveLoop at hx
    -- by the fault of the user's byte, in either direction
    split at hx
    · split at hx
      · cases hx
      · rcases List.mem_cons.mp hx with rfl | hx
        · exact hfirst
        · exact hnext x hx
    · split at hx
      · rw [List.mem_singleton.mp hx]
        exact hfirst
      · split at hx
        · rw [List.mem_singleton.mp hx]
          exact hfirst
        · rcases List.mem_cons.mp hx with rfl | hx
          · exact hfirst
          · exact hnext x hx

/-- The count goes down and the offset up by the number of bytes moved. -/
structure Moved (u u' : IoArgs) (k : ℕ) : Prop where
  u_count : u.u_count.toNat = u'.u_count.toNat + k
  u_offset : u'.u_offset = u.u_offset + BitVec.ofNat 32 k

theorem Moved.refl (u : IoArgs) : Moved u u 0 := ⟨rfl, by simp⟩

/-- One byte more has been moved. -/
theorem Moved.pass {u' : IoArgs} {k : ℕ} (h0 : u.u_count ≠ 0) (h : Moved u.pass u' k) :
    Moved u u' (k + 1) := by
  constructor
  · have hcount := h.u_count
    simp only [IoArgs.pass] at hcount
    bv_omega
  · rw [h.u_offset]
    simp only [IoArgs.pass]
    bv_omega

/-- The loop over bytes moves as many as it can. -/
theorem iomoveLoop_moved (write : Bool) (fault : BitVec 16 → Bool) {n : ℕ} (cp : ℤ)
    (hn : n ≤ u.u_count.toNat) : ∃ k ≤ n, Moved u (iomoveLoop write fault n cp u).2 k := by
  induction n generalizing cp u with
  | zero => exact ⟨0, le_rfl, .refl u⟩
  | succ n ih =>
    have h0 : u.u_count ≠ 0 := by
      rintro h0
      rw [h0] at hn
      exact absurd hn (Nat.not_succ_le_zero n)
    have hpass : n ≤ u.pass.u_count.toNat := by
      simp only [IoArgs.pass]
      bv_omega
    obtain ⟨k, hk, hmoved⟩ := ih (cp + 1) hpass
    unfold iomoveLoop
    split
    · exact ⟨k + 1, Nat.succ_le_succ hk, hmoved.pass h0⟩
    · split
      · exact ⟨0, Nat.zero_le _, ⟨rfl, by simp⟩⟩
      · split
        · exact ⟨1, by omega, (Moved.refl u.pass).pass h0⟩
        · exact ⟨k + 1, Nat.succ_le_succ hk, hmoved.pass h0⟩

end IoArgs

/-- What a call of `iomove` has to meet: a chunk within the block, and nothing else touched. -/
structure Move.InBlock (mv : Move) : Prop where
  pos : 1 ≤ mv.an.toInt
  fits : mv.o.toNat + mv.an.toInt ≤ 512
  touched : ∀ x ∈ mv.touched, (mv.o.toNat : ℤ) ≤ x.1 ∧ x.1 < mv.o.toNat + mv.an.toInt

/-- `iomove` of what fits stays in the block. -/
theorem IoArgs.iomove_inBlock {u v : IoArgs} {an : BitVec 16} (write : Bool)
    (fault : BitVec 16 → Bool) (hpos : 1 ≤ an.toInt) (hfits : u.o.toNat + an.toInt ≤ 512) :
    (v.iomove write fault u.o an).1.InBlock := by
  refine ⟨hpos, hfits, fun x hx => ?_⟩
  have hx := iomoveLoop_touched write fault an.toNat u.o.toInt v x hx
  have han := toNat_of_toInt_nonneg (show 0 ≤ an.toInt by omega)
  rw [o_toInt, han] at hx
  exact hx

/-! ## The calls -/

/-- Where a process stands in a call, with the count word of the call. -/
inductive XferPc (φ : Type)
  | user
  /-- Before a turn of `readi`, with the offset that it started with. -/
  | readi (f : φ) (count : BitVec 16) (start : BitVec 32) (u : IoArgs)
  /-- Before a turn of `writei`, with what `writep` has still to write after it. -/
  | writei (f : φ) (count c : BitVec 16) (u : IoArgs)
  /-- At `loop` of `writep`. -/
  | writep (f : φ) (count c : BitVec 16) (u : IoArgs)

/-- The sizes of the files, and the processes. -/
structure XferSys (π φ : Type) where
  i_size : φ → BitVec 24
  pc : π → XferPc φ

/-- What can happen next. -/
inductive XferAct (π φ : Type)
  /-- `rdwr(FREAD)`. For a pipe, `readp` has found data, and the offset is that of the reader. -/
  | read (p : π) (f : φ) (base count : BitVec 16) (offset : BitVec 32)
  /-- `rdwr(FWRITE)`. -/
  | write (p : π) (f : φ) (base count : BitVec 16) (offset : BitVec 32)
  | turn (p : π) (e : Env)
  /-- `writep` goes on; `epipe` if a side is closed. -/
  | writep (p : π) (epipe : Bool)
  /-- `itrunc`, or `readp` has read all that is in a pipe. -/
  | itrunc (f : φ)
  /-- A signal ends the sleep of a process. -/
  | abandon (p : π)

namespace XferSys

variable {π φ : Type} [DecidableEq π] [DecidableEq φ] (kind : φ → FKind)

def goto (s : XferSys π φ) (p : π) (k : XferPc φ) : XferSys π φ := { s with pc := update s.pc p k }

/-- `while(u.u_error==0 && u.u_count!=0)`, once something has been moved. -/
def again (r : Option Move × IoArgs) : Bool := r.1.isSome ∧ r.2.u_error = 0 ∧ r.2.u_count ≠ 0

/-- The call is over if the count is 0. -/
def rdwr (s : XferSys π φ) (p : π) (f : φ) (write : Bool) (u : IoArgs) : XferSys π φ :=
  if u.u_count = 0 then s
  else if write = false then s.goto p (.readi f u.u_count u.u_offset u)
  else if kind f = .pipe then s.goto p (.writep f u.u_count u.u_count u)
  else s.goto p (.writei f u.u_count 0 u)

/-- `writep` from `loop` on. -/
def writep (s : XferSys π φ) (p : π) (f : φ) (count c : BitVec 16) (u : IoArgs) (epipe : Bool) :
    Option (XferSys π φ) :=
  let size1 : BitVec 16 := (s.i_size f).setWidth 16
  if c = 0 ∨ epipe then some (s.goto p .user)
  else if size1 = 4096 then none
  else
    let u_count := smin c (4096 - size1)
    some (s.goto p (.writei f count (c - u_count)
      { u with u_offset := size1.setWidth 32, u_count := u_count }))

/-- After a turn of `writei`. -/
def written (s : XferSys π φ) (p : π) (f : φ) (count c : BitVec 16) (r : Option Move × IoArgs) :
    XferSys π φ :=
  let s := if r.1.isSome then
      { s with i_size := update s.i_size f (r.2.grow (kind f) (s.i_size f)) }
    else s
  s.goto p (if again r then .writei f count c r.2
    else if kind f = .pipe then .writep f count c r.2 else .user)

/-- One step; `none` if it cannot happen. -/
def step (s : XferSys π φ) : XferAct π φ → Option (XferSys π φ)
  | .read p f base count offset =>
    match s.pc p with
    | .user => some (s.rdwr kind p f false ⟨base, count, offset, 0⟩)
    | _ => none
  | .write p f base count offset =>
    match s.pc p with
    | .user => some (s.rdwr kind p f true ⟨base, count, offset, 0⟩)
    | _ => none
  | .turn p e =>
    match s.pc p with
    | .readi f count start u =>
      let r := u.readi (kind f) (s.i_size f) e
      some (s.goto p (if again r then .readi f count start r.2 else .user))
    | .writei f count c u => some (s.written kind p f count c (u.writei (kind f) e))
    | _ => none
  | .writep p epipe =>
    match s.pc p with
    | .writep f count c u => s.writep p f count c u epipe
    | _ => none
  | .itrunc f => some { s with i_size := update s.i_size f 0 }
  | .abandon p => some (s.goto p .user)

/-! ## The condition -/

/-- The count word is no negative number, or the first turn moves nothing: the offset is at the end
or behind it, or there is no block. -/
def Ok (s : XferSys π φ) : XferAct π φ → Prop
  | .turn p e =>
    match s.pc p with
    | .readi f count _ u => count.toInt < 0 → kind f ≠ .blk ∧
        ((dpcmp ((s.i_size f).setWidth 32) u.u_offset).toInt ≤ 0 ∨ (u.bmap e).1 = 0)
    | .writei f count _ u => count.toInt < 0 → kind f ≠ .blk ∧ (u.bmap e).1 = 0
    | _ => True
  | _ => True

/-- `iomove` stays in the block, and what has been read so far lies in the file. -/
def InBounds (s : XferSys π φ) : XferAct π φ → Prop
  | .turn p e =>
    match s.pc p with
    | .readi f count start u => ∀ mv ∈ (u.readi (kind f) (s.i_size f) e).1, mv.InBlock ∧
        (kind f ≠ .blk → (count.toNat : ℤ) - (u.readi (kind f) (s.i_size f) e).2.u_count.toNat ≤
          (s.i_size f).toNat - start.toInt)
    | .writei f _ _ u => ∀ mv ∈ (u.writei (kind f) e).1, mv.InBlock
    | _ => True
  | _ => True

/-- What is left of a count word before a turn. -/
def Left (count x : BitVec 16) : Prop := if count.toInt < 0 then x = count else 0 < x.toInt

/-- What holds between the turns. -/
structure Inv (s : XferSys π φ) : Prop where
  size : ∀ f, kind f = .pipe → (s.i_size f).toNat ≤ PIPSIZ
  readi : ∀ p f count start u, s.pc p = .readi f count start u → Left count u.u_count ∧
    (kind f ≠ .blk → ∃ k : ℕ, count.toNat = u.u_count.toNat + k ∧
      u.u_offset.toInt = start.toInt + k)
  writei : ∀ p f count c u, s.pc p = .writei f count c u → Left count u.u_count ∧
    (count.toInt < 0 → c = 0) ∧ (0 ≤ count.toInt → 0 ≤ c.toInt ∧
      (kind f = .pipe → u.u_offset.toNat + u.u_count.toNat ≤ PIPSIZ))
  writep : ∀ p f count c u, s.pc p = .writep f count c u → kind f = .pipe ∧
    (count.toInt < 0 → c = count ∨ c = 0) ∧ (0 ≤ count.toInt → 0 ≤ c.toInt)

end XferSys

/-! ## Turns -/

namespace IoArgs

variable {u u' : IoArgs} {k : FKind} {i_size : BitVec 24} {e : Env} {mv : Move}

@[simp] theorem setError_u_count (u : IoArgs) (err : ℕ) : (u.setError err).u_count = u.u_count := by
  unfold setError
  split <;> rfl

@[simp] theorem setError_u_offset (u : IoArgs) (err : ℕ) :
    (u.setError err).u_offset = u.u_offset := by
  unfold setError
  split <;> rfl

theorem Moved.of_setError {err n : ℕ} (h : Moved (u.setError err) u' n) : Moved u u' n :=
  ⟨by simpa using h.u_count, by simpa using h.u_offset⟩

/-- A turn of `readi` stops, at the end of the file or without a block, or gets to `iomove`. -/
theorem readi_cases (k : FKind) (i_size : BitVec 24) (e : Env) (u : IoArgs) :
    (k ≠ .blk ∧ ((dpcmp (i_size.setWidth 32) u.u_offset).toInt ≤ 0 ∨ (u.bmap e).1 = 0) ∧
      (u.readi k i_size e).1 = none) ∨
    ∃ (an : BitVec 16) (err : ℕ) (m : Move × IoArgs),
      m = (u.setError err).iomove false e.fault u.o an ∧ u.readi k i_size e = (some m.1, m.2) ∧
      ¬ (k ≠ .blk ∧ ((dpcmp (i_size.setWidth 32) u.u_offset).toInt ≤ 0 ∨ (u.bmap e).1 = 0)) ∧
      an.toInt ≤ u.chunk.toInt ∧ (0 < u.chunk.toInt → 0 < an.toInt) ∧
      (k ≠ .blk → an.toInt ≤ i_size.toNat - u.u_offset.toInt) := by
  by_cases hk : k = .blk
  · refine .inr ⟨u.chunk, e.err, _, rfl, ?_, fun hcond => hcond.1 hk, le_rfl, id,
      fun hcond => absurd hk hcond⟩
    -- a device has no end and no map
    simp only [IoArgs.readi, if_pos hk]
  · by_cases hdn : (dpcmp (i_size.setWidth 32) u.u_offset).toInt ≤ 0
    · -- the end of the file
      refine .inl ⟨hk, .inl hdn, ?_⟩
      have hsle : (dpcmp (i_size.setWidth 32) u.u_offset).sle 0 := BitVec.sle_iff_toInt_le.mpr hdn
      simp only [IoArgs.readi, if_neg hk, if_pos hsle]
    · have hsle : ¬ (dpcmp (i_size.setWidth 32) u.u_offset).sle 0 :=
        fun hsle => hdn (BitVec.sle_iff_toInt_le.mp hsle)
      by_cases hbn : (u.bmap e).1 = 0
      · -- no block
        refine .inl ⟨hk, .inr hbn, ?_⟩
        simp only [IoArgs.readi, if_neg hk, if_neg hsle, if_pos hbn]
      · have hmin := smin_toInt u.chunk (dpcmp (i_size.setWidth 32) u.u_offset)
        refine .inr ⟨smin u.chunk (dpcmp (i_size.setWidth 32) u.u_offset), (u.bmap e).2, _, rfl, ?_,
          fun hcond => hcond.2.elim hdn hbn, ?_, fun hpos => ?_, fun _ => ?_⟩
        · simp only [IoArgs.readi, if_neg hk, if_neg hsle, if_neg hbn]
        · rw [hmin]
          exact min_le_left _ _
        · rw [hmin]
          exact lt_min hpos (lt_of_not_ge hdn)
        · rw [hmin]
          exact (min_le_right _ _).trans (dpcmp_le (lt_of_not_ge hdn))

/-- A turn of `writei` stops without a block, or gets to `iomove`. -/
theorem writei_cases (k : FKind) (e : Env) (u : IoArgs) :
    (k ≠ .blk ∧ (u.bmap e).1 = 0 ∧ (u.writei k e).1 = none) ∨
    ∃ (err : ℕ) (m : Move × IoArgs), m = (u.setError err).iomove true e.fault u.o u.chunk ∧
      u.writei k e = (some m.1, m.2) ∧ ¬ (k ≠ .blk ∧ (u.bmap e).1 = 0) := by
  by_cases hk : k = .blk
  · refine .inr ⟨e.err, _, rfl, ?_, fun hcond => hcond.1 hk⟩
    simp only [IoArgs.writei, if_pos hk]
  · by_cases hbn : (u.bmap e).1 = 0
    · refine .inl ⟨hk, hbn, ?_⟩
      simp only [IoArgs.writei, if_neg hk, if_pos hbn]
    · refine .inr ⟨(u.bmap e).2, _, rfl, ?_, fun hcond => hbn hcond.2⟩
      simp only [IoArgs.writei, if_neg hk, if_neg hbn]

/-- A positive count: the chunk lies in the block, and some of it is moved. -/
theorem iomove_pos {an : BitVec 16} {err : ℕ} {m : Move × IoArgs} {write : Bool}
    (hm : m = (u.setError err).iomove write e.fault u.o an) (hcount : 0 < u.u_count.toInt)
    (hle : an.toInt ≤ u.chunk.toInt) (hpos : 0 < an.toInt) :
    m.1.InBlock ∧ ∃ n : ℕ, (n : ℤ) ≤ an.toInt ∧ Moved u m.2 n := by
  rw [chunk_toInt] at hle
  subst hm
  have han := toNat_of_toInt_nonneg hpos.le
  have hnat := toNat_of_toInt_nonneg hcount.le
  refine ⟨iomove_inBlock write e.fault hpos (by omega), ?_⟩
  have hn : an.toNat ≤ (u.setError err).u_count.toNat := by
    rw [setError_u_count]
    omega
  obtain ⟨n, hn, hmoved⟩ := iomoveLoop_moved write e.fault u.o.toInt hn
  exact ⟨n, by omega, hmoved.of_setError⟩

theorem chunk_pos (hcount : 0 < u.u_count.toInt) : 0 < u.chunk.toInt := by
  have hlt := o_lt u
  rw [chunk_toInt]
  omega

/-- A negative count is no chunk. -/
theorem not_inBlock {an : BitVec 16} {v : IoArgs} {write : Bool} (hcount : u.u_count.toInt < 0)
    (hle : an.toInt ≤ u.chunk.toInt) : ¬ (v.iomove write e.fault u.o an).1.InBlock := by
  intro hin
  have hpos : 1 ≤ an.toInt := hin.pos
  rw [chunk_toInt] at hle
  omega

/-- The offset grows by what was moved, below 2^24. -/
theorem Moved.toInt_u_offset {n : ℕ} {t : ℤ} (h : Moved u u' n) (ht : t < 2 ^ 24)
    (hn : n ≤ t - u.u_offset.toInt) : u'.u_offset.toInt = u.u_offset.toInt + n := by
  have hlow := u.u_offset.le_toInt
  have hsmall : (BitVec.ofNat 32 n).toInt = (n : ℤ).bmod (2 ^ 32) := BitVec.toInt_ofNat' ..
  rw [h.u_offset, BitVec.toInt_add, hsmall, Int.add_bmod_bmod]
  simp only [Nat.add_one_sub_one] at hlow
  rw [Int.bmod_def]
  omega

/-- What is left of the count is positive until it is 0. -/
theorem Moved.u_count_pos {n : ℕ} (h : Moved u u' n) (hcount : 0 < u.u_count.toInt)
    (h0 : u'.u_count ≠ 0) : 0 < u'.u_count.toInt := by
  have hnat := toNat_of_toInt_nonneg hcount.le
  have hlt := u.u_count.toInt_lt
  have hsum := h.u_count
  have hpos : u'.u_count.toNat ≠ 0 := fun hzero => h0 (BitVec.eq_of_toNat_eq (by simpa using hzero))
  simp only [Nat.add_one_sub_one] at hlt
  rw [BitVec.toInt_eq_toNat_cond]
  omega

/-- The offset grows by what was moved. -/
theorem Moved.toNat_u_offset {n t : ℕ} (h : Moved u u' n) (ht : t < 2 ^ 32)
    (hn : u.u_offset.toNat + n ≤ t) : u'.u_offset.toNat = u.u_offset.toNat + n := by
  rw [h.u_offset, BitVec.toNat_add, BitVec.toNat_ofNat]
  omega

end IoArgs

namespace XferSys

variable {π φ : Type} [DecidableEq π] [DecidableEq φ] {kind : φ → FKind} {s s' : XferSys π φ}

/-- A count that is not negative stays positive until it is 0. -/
theorem Left.pos {count x : BitVec 16} (h : Left count x) (hcount : 0 ≤ count.toInt) :
    0 < x.toInt := by
  unfold Left at h
  rwa [if_neg (not_lt.mpr hcount)] at h

/-- A negative count is left as it is. -/
theorem Left.neg {count x : BitVec 16} (h : Left count x) (hcount : count.toInt < 0) :
    x = count := by
  unfold Left at h
  rwa [if_pos hcount] at h

omit [DecidableEq π] [DecidableEq φ] in
/-- In bounds, exactly if the count is no negative number or nothing is moved. -/
theorem Inv.inBounds_iff (h : Inv kind s) {a : XferAct π φ} : s.InBounds kind a ↔ s.Ok kind a := by
  cases a with
  | read | write | writep | itrunc | abandon => exact Iff.rfl
  | turn p e =>
    simp only [InBounds, Ok]
    split
    · next f count start u hpc =>
      obtain ⟨hleft, htotal⟩ := h.readi p f count start u hpc
      rcases u.readi_cases (kind f) (s.i_size f) e with
        ⟨hk, hstop, hnone⟩ | ⟨an, err, m, hm, heq, hgo, hle, hpos, hsize⟩
      · rw [hnone]
        exact ⟨fun _ _ => ⟨hk, hstop⟩, fun _ mv hmv => nomatch hmv⟩
      · rw [heq]
        constructor
        · intro hin hcount
          -- a negative count moves out of the block
          have hu : u.u_count.toInt < 0 := by rwa [hleft.neg hcount]
          obtain ⟨hblock, -⟩ := hin m.1 rfl
          rw [hm] at hblock
          exact absurd hblock (IoArgs.not_inBlock hu hle)
        · intro hok mv hmv
          obtain rfl : m.1 = mv := Option.some.inj hmv
          -- a count that is not negative stays in the block and in the file
          have hcount : 0 ≤ count.toInt := not_lt.mp fun hcount => hgo (hok hcount)
          have hu := hleft.pos hcount
          obtain ⟨hblock, n, hn, hmoved⟩ := IoArgs.iomove_pos hm hu hle (hpos (IoArgs.chunk_pos hu))
          refine ⟨hblock, fun hk => ?_⟩
          obtain ⟨k, hk', hoff⟩ := htotal hk
          have hsub := hmoved.u_count
          have hsize := hsize hk
          dsimp only
          omega
    · next f count c u hpc =>
      obtain ⟨hleft, -, -⟩ := h.writei p f count c u hpc
      rcases u.writei_cases (kind f) e with ⟨hk, hstop, hnone⟩ | ⟨err, m, hm, heq, hgo⟩
      · rw [hnone]
        exact ⟨fun _ _ => ⟨hk, hstop⟩, fun _ mv hmv => nomatch hmv⟩
      · rw [heq]
        constructor
        · intro hin hcount
          have hu : u.u_count.toInt < 0 := by rwa [hleft.neg hcount]
          have hblock := hin m.1 rfl
          rw [hm] at hblock
          exact absurd hblock (IoArgs.not_inBlock hu le_rfl)
        · intro hok mv hmv
          obtain rfl : m.1 = mv := Option.some.inj hmv
          have hcount : 0 ≤ count.toInt := not_lt.mp fun hcount => hgo (hok hcount)
          have hu := hleft.pos hcount
          exact (IoArgs.iomove_pos hm hu le_rfl (IoArgs.chunk_pos hu)).1
    · exact Iff.rfl

/-! ## Runs -/

omit [DecidableEq φ] in
/-- Where a process stands after one of them went on. -/
theorem pc_goto {p q : π} {k l : XferPc φ} (h : (s.goto p k).pc q = l) :
    q = p ∧ k = l ∨ q ≠ p ∧ s.pc q = l := by
  rcases eq_or_ne q p with rfl | hq
  · exact .inl ⟨rfl, by simpa [goto] using h⟩
  · exact .inr ⟨hq, by simpa [goto, update_of_ne hq] using h⟩

omit [DecidableEq φ] in
/-- A process goes on, from where the invariant holds of it. -/
theorem Inv.goto (h : Inv kind s) {p : π} {k : XferPc φ}
    (hreadi : ∀ f count start u, k = .readi f count start u → Left count u.u_count ∧
      (kind f ≠ .blk → ∃ n : ℕ, count.toNat = u.u_count.toNat + n ∧
        u.u_offset.toInt = start.toInt + n))
    (hwritei : ∀ f count c u, k = .writei f count c u → Left count u.u_count ∧
      (count.toInt < 0 → c = 0) ∧ (0 ≤ count.toInt → 0 ≤ c.toInt ∧
        (kind f = .pipe → u.u_offset.toNat + u.u_count.toNat ≤ PIPSIZ)))
    (hwritep : ∀ f count c u, k = .writep f count c u → kind f = .pipe ∧
      (count.toInt < 0 → c = count ∨ c = 0) ∧ (0 ≤ count.toInt → 0 ≤ c.toInt)) :
    Inv kind (s.goto p k) := by
  constructor
  · exact h.size
  · intro q f count start u hpc
    rcases pc_goto hpc with ⟨-, hk⟩ | ⟨-, hpc⟩
    · exact hreadi f count start u hk
    · exact h.readi q f count start u hpc
  · intro q f count c u hpc
    rcases pc_goto hpc with ⟨-, hk⟩ | ⟨-, hpc⟩
    · exact hwritei f count c u hk
    · exact h.writei q f count c u hpc
  · intro q f count c u hpc
    rcases pc_goto hpc with ⟨-, hk⟩ | ⟨-, hpc⟩
    · exact hwritep f count c u hk
    · exact h.writep q f count c u hpc

omit [DecidableEq φ] in
theorem Inv.user (h : Inv kind s) (p : π) : Inv kind (s.goto p .user) :=
  h.goto (fun _ _ _ _ hk => nomatch hk) (fun _ _ _ _ hk => nomatch hk)
    (fun _ _ _ _ hk => nomatch hk)

omit [DecidableEq π] in
/-- The size of a pipe stays below its limit. -/
theorem Inv.setSize (h : Inv kind s) {f : φ} {i_size : BitVec 24}
    (hsize : kind f = .pipe → i_size.toNat ≤ PIPSIZ) :
    Inv kind { s with i_size := update s.i_size f i_size } := by
  refine ⟨fun g hg => ?_, h.readi, h.writei, h.writep⟩
  rcases eq_or_ne g f with rfl | hgf
  · simpa using hsize hg
  · simpa [update_of_ne hgf] using h.size g hg

/-- A count word that is not 0 is left whole at first. -/
theorem left_self {count : BitVec 16} (h0 : count ≠ 0) : Left count count := by
  unfold Left
  split
  · rfl
  · next hneg =>
    refine lt_of_le_of_ne (not_lt.mp hneg) fun hzero => h0 ?_
    exact BitVec.eq_of_toInt_eq (by simpa using hzero.symm)

omit [DecidableEq φ] in
/-- A transfer starts. -/
theorem Inv.rdwr (h : Inv kind s) (p : π) (f : φ) (write : Bool) (u : IoArgs) :
    Inv kind (s.rdwr kind p f write u) := by
  unfold XferSys.rdwr
  split
  · exact h
  · next h0 =>
    have hleft := left_self h0
    split
    · refine h.goto (fun g count start v hk => ?_) (fun _ _ _ _ hk => nomatch hk)
        (fun _ _ _ _ hk => nomatch hk)
      cases hk
      exact ⟨hleft, fun _ => ⟨0, rfl, by simp⟩⟩
    · split
      · next hpipe =>
        refine h.goto (fun _ _ _ _ hk => nomatch hk) (fun _ _ _ _ hk => nomatch hk)
          (fun g count c v hk => ?_)
        cases hk
        exact ⟨hpipe, fun _ => .inl rfl, id⟩
      · next hpipe =>
        refine h.goto (fun _ _ _ _ hk => nomatch hk) (fun g count c v hk => ?_)
          (fun _ _ _ _ hk => nomatch hk)
        cases hk
        exact ⟨hleft, fun _ => rfl, fun _ => ⟨le_rfl, fun hg => absurd hg hpipe⟩⟩

omit [DecidableEq φ] in
/-- `writep` goes on with the next piece. -/
theorem Inv.loop_writep (h : Inv kind s) {p : π} {f : φ} {count c : BitVec 16} {u : IoArgs}
    {epipe : Bool} (hpc : s.pc p = .writep f count c u)
    (hs : s.writep p f count c u epipe = some s') : Inv kind s' := by
  obtain ⟨hf, hneg, hnonneg⟩ := h.writep p f count c u hpc
  simp only [XferSys.writep] at hs
  -- all is written, or `EPIPE`
  split at hs
  · obtain rfl := Option.some.inj hs
    exact h.user p
  -- what is left goes in as far as the pipe has room
  · next hgo =>
    split at hs
    · cases hs
    · next hfull =>
      obtain rfl := Option.some.inj hs
      -- the size of a pipe is its 16-bit part
      obtain ⟨hc0, -⟩ := not_or.mp hgo
      have hsize : (s.i_size f).toNat ≤ 4096 := h.size f hf
      have hsize1 : ((s.i_size f).setWidth 16 : BitVec 16).toNat = (s.i_size f).toNat := by
        rw [BitVec.toNat_setWidth]
        omega
      generalize ((s.i_size f).setWidth 16 : BitVec 16) = size1 at hfull hsize1 ⊢
      obtain ⟨hroom, hroomeq⟩ := room_toInt (hsize1 ▸ hsize) hfull
      have hmin := smin_toInt c (4096 - size1)
      refine h.goto (fun _ _ _ _ hk => nomatch hk) (fun g count' c' v hk => ?_)
        (fun _ _ _ _ hk => nomatch hk)
      cases hk
      by_cases hcount : count.toInt < 0
      · -- All is taken at once, and what is left is 0.
        obtain rfl := (hneg hcount).resolve_right hc0
        have hall : smin c (4096 - size1) = c := by
          apply BitVec.eq_of_toInt_eq
          omega
        refine ⟨?_, fun _ => ?_, fun hpos => absurd hpos (not_le.mpr hcount)⟩
        · simp only [hall, Left, if_pos hcount]
        · rw [hall, BitVec.sub_self]
          rfl
      -- the count has come down but not below zero
      · have hc := hnonneg (not_lt.mp hcount)
        have hcpos : 0 < c.toInt :=
          lt_of_le_of_ne hc fun hzero => hc0 (BitVec.eq_of_toInt_eq (by simpa using hzero.symm))
        have hnat := toNat_of_toInt_nonneg (x := smin c (4096 - size1)) (by omega)
        refine ⟨?_, fun hlt => absurd hlt hcount, fun _ => ⟨sub_smin_nonneg hroom hc, fun _ => ?_⟩⟩
        -- what is left is the count minus what was taken
        · simp only [Left, if_neg hcount]
          omega
        -- the part in turn fits into the pipe
        · have hoff : (size1.setWidth 32 : BitVec 32).toNat = size1.toNat := by
            rw [BitVec.toNat_setWidth]
            omega
          have hsum : size1.toNat + (smin c (4096 - size1)).toNat ≤ PIPSIZ := by
            unfold PIPSIZ
            omega
          simpa only [hoff] using hsum

omit [DecidableEq φ] in
/-- A turn of `readi`. -/
theorem Inv.turn_readi (h : Inv kind s) {p : π} {e : Env} {f : φ} {count : BitVec 16}
    {start : BitVec 32} {u : IoArgs} (hpc : s.pc p = .readi f count start u)
    (hok : s.Ok kind (.turn p e)) :
    Inv kind (s.goto p (if again (u.readi (kind f) (s.i_size f) e) then
      .readi f count start (u.readi (kind f) (s.i_size f) e).2 else .user)) := by
  split
  · next hagain =>
    obtain ⟨hsome, -, hleft0⟩ := of_decide_eq_true hagain
    obtain ⟨hleft, htotal⟩ := h.readi p f count start u hpc
    rcases u.readi_cases (kind f) (s.i_size f) e with
      ⟨-, -, hnone⟩ | ⟨an, err, m, hm, heq, hgo, hle, hpos, hsize⟩
    · rw [hnone] at hsome
      cases hsome
    · rw [heq] at hleft0 ⊢
      simp only [Ok, hpc] at hok
      have hcount : 0 ≤ count.toInt := not_lt.mp fun hcount => hgo (hok hcount)
      have hu := hleft.pos hcount
      obtain ⟨-, n, hn, hmoved⟩ := IoArgs.iomove_pos hm hu hle (hpos (IoArgs.chunk_pos hu))
      refine h.goto (fun g count' start' v hk => ?_) (fun _ _ _ _ hk => nomatch hk)
        (fun _ _ _ _ hk => nomatch hk)
      cases hk
      constructor
      · simp only [Left, if_neg (not_lt.mpr hcount)]
        exact hmoved.u_count_pos hu hleft0
      · intro hk
        obtain ⟨k, hsum, hoff⟩ := htotal hk
        have hsub := hmoved.u_count
        have hlt := (s.i_size f).isLt
        have hoff' := hmoved.toInt_u_offset (t := (s.i_size f).toNat) (by omega)
          (hn.trans (hsize hk))
        -- the parts moved so far add up
        have hsum' : count.toNat = m.2.u_count.toNat + (k + n) := by omega
        refine ⟨k + n, hsum', ?_⟩
        rw [hoff', hoff]
        push_cast
        ring
  · exact h.user p

/-- A pipe does not grow over `PIPSIZ`. -/
theorem grow_le {k : FKind} {i_size : BitVec 24} {u : IoArgs} {n : ℕ} (hsize : i_size.toNat ≤ n)
    (hoff : u.u_offset.toNat ≤ n) : (u.grow k i_size).toNat ≤ n := by
  unfold IoArgs.grow
  split
  · rw [BitVec.toNat_setWidth]
    exact (Nat.mod_le _ _).trans hoff
  · exact hsize

/-- A turn of `writei`. -/
theorem Inv.turn_writei (h : Inv kind s) {p : π} {e : Env} {f : φ} {count c : BitVec 16}
    {u : IoArgs} (hpc : s.pc p = .writei f count c u) (hok : s.Ok kind (.turn p e)) :
    Inv kind (s.written kind p f count c (u.writei (kind f) e)) := by
  obtain ⟨hleft, hneg, hnonneg⟩ := h.writei p f count c u hpc
  have hwritep : kind f = .pipe → ∀ v : IoArgs, ∀ g count' c' v', XferPc.writep f count c v =
      .writep g count' c' v' → kind g = .pipe ∧ (count'.toInt < 0 → c' = count' ∨ c' = 0) ∧
        (0 ≤ count'.toInt → 0 ≤ c'.toInt) := by
    rintro hf v g count' c' v' hk
    cases hk
    exact ⟨hf, fun hlt => .inr (hneg hlt), fun hle => (hnonneg hle).1⟩
  rcases u.writei_cases (kind f) e with ⟨-, -, hnone⟩ | ⟨err, m, hm, heq, hgo⟩
  · have hagain : again (u.writei (kind f) e) = false := by simp [again, hnone]
    simp only [written, hnone, hagain, Option.isSome_none, Bool.false_eq_true, if_false]
    split
    · next hf =>
      exact h.goto (fun _ _ _ _ hk => nomatch hk) (fun _ _ _ _ hk => nomatch hk) (hwritep hf _)
    · exact h.user p
  · simp only [Ok, hpc] at hok
    have hcount : 0 ≤ count.toInt := not_lt.mp fun hcount => hgo (hok hcount)
    have hu := hleft.pos hcount
    obtain ⟨-, n, hn, hmoved⟩ := IoArgs.iomove_pos hm hu le_rfl (IoArgs.chunk_pos hu)
    -- a pipe does not grow over its size
    have hpipe : kind f = .pipe → m.2.u_offset.toNat + m.2.u_count.toNat ≤ PIPSIZ := by
      intro hf
      have hroom := (hnonneg hcount).2 hf
      have hsub := hmoved.u_count
      have hoff := hmoved.toNat_u_offset (t := PIPSIZ) (by decide) (by omega)
      omega
    have hinv : Inv kind { s with i_size := update s.i_size f (m.2.grow (kind f) (s.i_size f)) } :=
      h.setSize fun hf => grow_le (h.size f hf) ((Nat.le_add_right _ _).trans (hpipe hf))
    simp only [written, heq, Option.isSome_some, if_true]
    split
    · next hagain =>
      obtain ⟨-, -, hleft0⟩ := of_decide_eq_true hagain
      refine hinv.goto (fun _ _ _ _ hk => nomatch hk) (fun g count' c' v hk => ?_)
        (fun _ _ _ _ hk => nomatch hk)
      cases hk
      refine ⟨?_, hneg, fun hle => ⟨(hnonneg hle).1, hpipe⟩⟩
      simp only [Left, if_neg (not_lt.mpr hcount)]
      exact hmoved.u_count_pos hu hleft0
    · split
      · next hf =>
        exact hinv.goto (fun _ _ _ _ hk => nomatch hk) (fun _ _ _ _ hk => nomatch hk) (hwritep hf _)
      · exact hinv.user p

/-- Every step keeps the assertions of all transfers. -/
theorem Inv.step (h : Inv kind s) {a : XferAct π φ} (hok : s.Ok kind a)
    (hs : s.step kind a = some s') : Inv kind s' := by
  cases a with
  -- each action of the transfer is one lemma
  | read p f base count offset =>
    simp only [XferSys.step] at hs
    split at hs
    · obtain rfl := Option.some.inj hs
      exact h.rdwr p f false _
    · cases hs
  | write p f base count offset =>
    simp only [XferSys.step] at hs
    split at hs
    · obtain rfl := Option.some.inj hs
      exact h.rdwr p f true _
    · cases hs
  | turn p e =>
    simp only [XferSys.step] at hs
    split at hs
    · next hpc =>
      obtain rfl := Option.some.inj hs
      exact h.turn_readi hpc hok
    · next hpc =>
      -- a turn of a write, of any file
      obtain rfl := Option.some.inj hs
      exact h.turn_writei hpc hok
    · cases hs
  | writep p epipe =>
    simp only [XferSys.step] at hs
    split at hs
    · next hpc => exact h.loop_writep hpc hs
    · cases hs
  | itrunc f =>
    obtain rfl := Option.some.inj hs
    exact h.setSize fun _ => Nat.zero_le _
  | abandon p =>
    obtain rfl := Option.some.inj hs
    exact h.user p

/-- No transfer is under way. -/
def idle (i_size : φ → BitVec 24) : XferSys π φ where
  i_size := i_size
  pc _ := .user

omit [DecidableEq π] [DecidableEq φ] in
/-- When nobody has a transfer. -/
theorem inv_idle {i_size : φ → BitVec 24} (h : ∀ f, kind f = .pipe → (i_size f).toNat ≤ PIPSIZ) :
    Inv kind (idle i_size : XferSys π φ) :=
  ⟨h, fun _ _ _ _ _ hpc => (nomatch hpc), fun _ _ _ _ _ hpc => (nomatch hpc),
    fun _ _ _ _ _ hpc => (nomatch hpc)⟩

/-! ## The results -/

/-- In every run whose turns have been in order so far, the next turn stays in its block exactly if
it is in order too. A pipe starts with at most `PIPSIZ` bytes. -/
theorem inBounds_iff_of_reachable {i_size : φ → BitVec 24}
    (hpipe : ∀ f, kind f = .pipe → (i_size f).toNat ≤ PIPSIZ)
    (h : Reachable (step kind) (Ok kind) (idle i_size : XferSys π φ) s) (a : XferAct π φ) :
    s.InBounds kind a ↔ s.Ok kind a :=
  (h.invariant (inv_idle hpipe) fun _ _ _ hinv hok hs => hinv.step hok hs).inBounds_iff

/-- One file of each kind; the pipe is full. -/
def sizes : FKind → BitVec 24
  | .file => 1000
  | .blk => 0
  | .pipe => 4096

theorem sizes_pipe (f : FKind) (hf : id f = .pipe) : (sizes f).toNat ≤ PIPSIZ := by
  obtain rfl : f = .pipe := hf
  decide

/-- Block 5, without an error. -/
def found : Env := ⟨5, 0, fun _ => false⟩

/-- One process has a read of the last bytes of the file before it, another a write of more than the
pipe can take. -/
def readAndWrite : List (XferAct Bool FKind) :=
  [.read false .file 0x2000 100 960, .write true .pipe 0x4000 5000 0, .itrunc .pipe,
    .writep true false]

/-- A file is read and a pipe is written at the same time. -/
theorem inBounds_iff_of_reachable_readAndWrite : ∃ s : XferSys Bool FKind,
    (s.InBounds id (.turn false found) ↔ s.Ok id (.turn false found)) ∧
      (s.InBounds id (.turn true found) ↔ s.Ok id (.turn true found)) ∧
      (∃ u, s.pc false = .readi .file 100 960 u) ∧ ∃ u, s.pc true = .writei .pipe 5000 904 u := by
  obtain ⟨s, hs, hread, hwrite⟩ : ∃ s, runSteps (step id) readAndWrite (idle sizes) = some s ∧
      (∃ u, s.pc false = .readi .file 100 960 u) ∧ ∃ u, s.pc true = .writei .pipe 5000 904 u :=
    ⟨_, rfl, ⟨_, rfl⟩, ⟨_, rfl⟩⟩
  have hreach : Reachable (step id) (Ok id) (idle sizes) s := by
    refine Reachable.refl.of_runSteps_ok (fun a ha s => ?_) hs
    simp only [readAndWrite, List.mem_cons, List.not_mem_nil, or_false] at ha
    rcases ha with rfl | rfl | rfl | rfl <;> trivial
  exact ⟨s, inBounds_iff_of_reachable sizes_pipe hreach _,
    inBounds_iff_of_reachable sizes_pipe hreach _, hread, hwrite⟩

/-- A write of 40000 bytes: `min` takes the count for a negative number, and `iomove` runs on behind
the buffer. -/
theorem not_inBounds : ¬ ∀ (kind : FKind → FKind) (i_size : FKind → BitVec 24),
    (∀ f, kind f = .pipe → (i_size f).toNat ≤ PIPSIZ) → ∀ s : XferSys Bool FKind,
    Reachable (step kind) (fun _ _ => True) (idle i_size) s → ∀ a, s.InBounds kind a := by
  intro hall
  have hs : step id (idle sizes) (.write true .file 0 40000 0) =
      some ((idle sizes).goto true (.writei .file 40000 0 ⟨0, 40000, 0, 0⟩)) := rfl
  have hin := hall id sizes sizes_pipe _ (Reachable.refl.tail trivial hs) (.turn true found)
  have hinv := (inv_idle sizes_pipe).step (a := .write true .file 0 40000 0) trivial hs
  obtain ⟨-, hbn⟩ := hinv.inBounds_iff.mp hin (by decide)
  exact absurd hbn (by decide)

end XferSys

end UnixV6
