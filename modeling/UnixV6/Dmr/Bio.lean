import UnixV6.Lib.Ring
import UnixV6.Lib.Run
import UnixV6.H.Buf
import UnixV6.H.Param

/-!
# The buffer cache (`dmr/bio.c`, `dmr/rk.c`)

Buffer headers with their two pairs of links, as pointers into one memory, and the processes that
run `getblk`, `bread`, `breada`, `bwrite`, `bawrite`, `bdwrite`, `brelse` and `bflush`.

The kernel does not preempt a process: another one runs only when the current one sleeps or has
left these routines. Disk interrupts come at any time at priority 0. The routines are therefore cut
into pieces at their sleeps, and where they go on to use what an interrupt may have changed; `Pc`
says before which piece a process stands, and `step` runs one piece or one interrupt. The parts at
priority 6 lie within one piece each.

Contents of blocks are values of any type, and the disk has one for each sector, which `devstart`
computes from the device and the block number: it sends the block when it starts a write, and the
interrupt that ends a read fetches it.
Left out is what no routine here reads: counts and addresses of the buffers, `d_errcnt`, and the
error codes that `geterror` hands to the user.
-/

open Function

namespace UnixV6

/-- `dev` and block numbers are `int`s. -/
abbrev Dev : Type := BitVec 16

/-- What a pointer to a header can point at. -/
inductive Ptr
  | null
  | bfreelist
  | rktab
  | buf (n : Fin NBUF)
  deriving DecidableEq

/-- One of the buffers proper. -/
def Ptr.IsBuf : Ptr → Prop
  | .buf _ => True
  | _ => False

theorem Ptr.IsBuf.exists_buf {bp : Ptr} (h : bp.IsBuf) : ∃ n, bp = .buf n := by
  cases bp with
  | buf n => exact ⟨n, rfl⟩
  | _ => exact h.elim

/-- The headers, the disk with its `devtab`, and what the processes `π` sleep on. The blocks have
contents in `β`. -/
structure Bio (π β : Type) where
  b_flags : Ptr → BFlags
  b_forw : Ptr → Ptr
  b_back : Ptr → Ptr
  av_forw : Ptr → Ptr
  av_back : Ptr → Ptr
  b_dev : Ptr → Dev
  b_blkno : Ptr → Dev
  d_active : ℕ
  d_actf : Ptr
  d_actl : Ptr
  p_wchan : π → Option Ptr
  /-- What `b_addr` points at. -/
  data : Ptr → β
  /-- The sectors, 16-bit numbers. -/
  disk : BitVec 16 → β

/-- `NODEV`. -/
def NODEV : Dev := -1

/-- `nblkdev`, as `binit` counts it: there is one block device. -/
def nblkdev : Dev := 1

namespace Bio

variable {π β : Type}

/-- Change the flags of a header. -/
def setFlags (bp : Ptr) (f : BFlags → BFlags) (s : Bio π β) : Bio π β :=
  { s with b_flags := update s.b_flags bp (f (s.b_flags bp)) }

/-- The flags that have been set. -/
@[simp]
theorem setFlags_self (bp : Ptr) (f : BFlags → BFlags) (s : Bio π β) :
    (s.setFlags bp f).b_flags bp = f (s.b_flags bp) :=
  update_self ..

/-- The flags of other headers stay. -/
theorem setFlags_of_ne {bp x : Ptr} (hx : x ≠ bp) (f : BFlags → BFlags) (s : Bio π β) :
    (s.setFlags bp f).b_flags x = s.b_flags x :=
  update_of_ne hx ..

/-- Flags are set twice. -/
theorem setFlags_setFlags (bp : Ptr) (f g : BFlags → BFlags) (s : Bio π β) :
    (s.setFlags bp f).setFlags bp g = s.setFlags bp fun fl => g (f fl) := by
  simp [setFlags]

def wakeup (chan : Ptr) (s : Bio π β) : Bio π β :=
  { s with p_wchan := fun p => if s.p_wchan p = some chan then none else s.p_wchan p }

/-! ## Lists of buffers -/

/-- Unlink a buffer from the available list and mark it busy. -/
def notavail (bp : Ptr) (s : Bio π β) : Bio π β :=
  let s := { s with av_forw := update s.av_forw (s.av_back bp) (s.av_forw bp) }
  let s := { s with av_back := update s.av_back (s.av_forw bp) (s.av_back bp) }
  s.setFlags bp fun fl => { fl with b_busy := true }

/-- `bflush` sets `B_ASYNC` first. -/
theorem setFlags_notavail (bp : Ptr) (s : Bio π β) :
    (s.setFlags bp fun fl => { fl with b_async := true }).notavail bp =
      (s.notavail bp).setFlags bp fun fl => { fl with b_async := true } := by
  simp [notavail, setFlags]

/-- Release the buffer, with no I/O implied. -/
def brelse (bp : Ptr) (s : Bio π β) : Bio π β :=
  let s := if (s.b_flags bp).b_wanted then wakeup bp s else s
  let s :=
    if (s.b_flags .bfreelist).b_wanted then
      wakeup .bfreelist (s.setFlags .bfreelist fun fl => { fl with b_wanted := false })
    else s
  let s :=
    if (s.b_flags bp).b_error then { s with b_dev := update s.b_dev bp (s.b_dev bp ||| 0xff) }
    else s
  let s := s.setFlags bp fun fl => { fl with b_wanted := false, b_busy := false, b_async := false }
  let s := { s with av_forw := update s.av_forw (s.av_back .bfreelist) bp }
  let s := { s with av_back := update s.av_back bp (s.av_back .bfreelist) }
  let s := { s with av_back := update s.av_back .bfreelist bp }
  { s with av_forw := update s.av_forw bp .bfreelist }

section brelse

variable (bp : Ptr) (s : Bio π β)

@[simp]
theorem brelse_b_forw : (s.brelse bp).b_forw = s.b_forw := by
  unfold brelse
  dsimp only [setFlags]
  split_ifs <;> rfl

@[simp]
theorem brelse_b_back : (s.brelse bp).b_back = s.b_back := by
  unfold brelse
  dsimp only [setFlags]
  split_ifs <;> rfl

@[simp]
theorem brelse_b_blkno : (s.brelse bp).b_blkno = s.b_blkno := by
  unfold brelse
  dsimp only [setFlags]
  split_ifs <;> rfl

@[simp]
theorem brelse_d_active : (s.brelse bp).d_active = s.d_active := by
  unfold brelse
  dsimp only [setFlags]
  split_ifs <;> rfl

@[simp]
theorem brelse_d_actf : (s.brelse bp).d_actf = s.d_actf := by
  unfold brelse
  dsimp only [setFlags]
  split_ifs <;> rfl

@[simp]
theorem brelse_d_actl : (s.brelse bp).d_actl = s.d_actl := by
  unfold brelse
  dsimp only [setFlags]
  split_ifs <;> rfl

/-- `brelse` puts the buffer at the end of the available list. -/
theorem brelse_av_forw :
    (s.brelse bp).av_forw = update (update s.av_forw (s.av_back .bfreelist) bp) bp .bfreelist := by
  unfold brelse
  dsimp only [setFlags]
  split_ifs <;> rfl

/-- `brelse` puts the buffer at the end of the available list. -/
theorem brelse_av_back :
    (s.brelse bp).av_back = update (update s.av_back bp (s.av_back .bfreelist)) .bfreelist bp := by
  unfold brelse
  dsimp only [setFlags]
  split_ifs <;> rfl

variable {bp s}

/-- A buffer loses its association on an error only. -/
theorem brelse_b_dev (bp : Ptr) (s : Bio π β) (x : Ptr) : (s.brelse bp).b_dev x = s.b_dev x ∨
    (s.b_flags bp).b_error = true ∧ x = bp ∧ (s.brelse bp).b_dev x = s.b_dev x ||| 0xff := by
  -- clearing `B_WANTED` in `bfreelist` does not change `B_ERROR`
  have herror : ((s.setFlags .bfreelist fun fl => { fl with b_wanted := false }).b_flags
      bp).b_error = (s.b_flags bp).b_error := by
    by_cases hbp : bp = .bfreelist
    · subst hbp
      rw [setFlags_self]
    · rw [setFlags_of_ne hbp]
  dsimp only [setFlags] at herror
  unfold brelse
  dsimp only [setFlags, wakeup]
  by_cases hx : x = bp
  · subst hx
    split_ifs <;> simp_all
  · left
    split_ifs <;> simp [update_of_ne hx]

/-- A buffer that is released is not busy, wanted or asynchronous. -/
theorem brelse_flags_self (hbp : bp ≠ .bfreelist) : (s.brelse bp).b_flags bp =
    { s.b_flags bp with b_wanted := false, b_busy := false, b_async := false } := by
  unfold brelse
  dsimp only [setFlags, wakeup]
  split_ifs <;> simp [update_of_ne hbp]

/-- `brelse` leaves the flags of the others alone. -/
theorem brelse_flags_of_ne {x : Ptr} (hx : x ≠ bp) (hx' : x ≠ .bfreelist) :
    (s.brelse bp).b_flags x = s.b_flags x := by
  unfold brelse
  dsimp only [setFlags, wakeup]
  split_ifs <;> simp [update_of_ne hx, update_of_ne hx']

end brelse

/-- Where `getblk` and `incore` find the device's list; `none` is not a device. -/
def devtab (dev : Dev) : Option Ptr :=
  if (dev.sshiftRight 8).slt 0 ∨ nblkdev.sle (dev.sshiftRight 8) then none else some .rktab

/-- The loop over the device's list; `none` would be that it does not end. -/
def search (dp : Ptr) (dev blkno : Dev) (s : Bio π β) : Option (Option Ptr) :=
  ringFind s.b_forw dp (fun bp => s.b_blkno bp = blkno ∧ s.b_dev bp = dev) NBUF (s.b_forw dp)

/-- See if the block is associated with some buffer. -/
def incore (dev blkno : Dev) (s : Bio π β) : Option (Option Ptr) :=
  devtab dev >>= fun dp => search dp dev blkno s

/-- Which list `getblk` puts a buffer on. -/
def getblkTab (dev : Dev) : Option Ptr :=
  if dev.slt 0 then some .bfreelist else devtab dev

/-- The end of `getblk`: reassign the buffer. -/
def assign (bp dp : Ptr) (dev blkno : Dev) (s : Bio π β) : Bio π β :=
  let s := s.setFlags bp fun _ => { b_busy := true }
  let s := { s with b_forw := update s.b_forw (s.b_back bp) (s.b_forw bp) }
  let s := { s with b_back := update s.b_back (s.b_forw bp) (s.b_back bp) }
  let s := { s with b_forw := update s.b_forw bp (s.b_forw dp) }
  let s := { s with b_back := update s.b_back bp dp }
  let s := { s with b_back := update s.b_back (s.b_forw dp) bp }
  let s := { s with b_forw := update s.b_forw dp bp }
  { s with b_dev := update s.b_dev bp dev, b_blkno := update s.b_blkno bp blkno }

/-! ## The disk driver -/

/-- Mark I/O complete on a buffer, release it if I/O is asynchronous. -/
def iodone (bp : Ptr) (s : Bio π β) : Bio π β :=
  let s := s.setFlags bp fun fl => { fl with b_done := true }
  if (s.b_flags bp).b_async then brelse bp s
  else wakeup bp (s.setFlags bp fun fl => { fl with b_wanted := false })

/-- `iodone` leaves the flags of the others alone. -/
theorem iodone_flags_of_ne {bp x : Ptr} (hx : x ≠ bp) (hx' : x ≠ .bfreelist) (s : Bio π β) :
    (s.iodone bp).b_flags x = s.b_flags x := by
  unfold iodone
  dsimp only
  split_ifs
  · rw [brelse_flags_of_ne hx hx', setFlags_of_ne hx]
  · rw [wakeup, setFlags_of_ne hx, setFlags_of_ne hx]

/-- `iodone` does not make a buffer asynchronous. -/
theorem iodone_async {bp : Ptr} {s : Bio π β} (ha : (s.b_flags bp).b_async = false) :
    ((s.iodone bp).b_flags bp).b_async = false := by
  unfold iodone
  dsimp only
  rw [setFlags_self, if_neg (by simp [ha])]
  simp [wakeup, ha]

/-- Without an error `iodone` leaves the device alone. -/
theorem iodone_b_dev {bp : Ptr} {s : Bio π β} (herror : (s.b_flags bp).b_error = false) :
    (s.iodone bp).b_dev = s.b_dev := by
  unfold iodone
  dsimp only
  split_ifs
  · funext x
    rcases brelse_b_dev bp (s.setFlags bp fun fl => { fl with b_done := true }) x with
      hdev | ⟨herror', -⟩
    · exact hdev
    · rw [setFlags_self, herror] at herror'
      cases herror'
  · rfl

@[simp]
theorem iodone_b_blkno (bp : Ptr) (s : Bio π β) : (s.iodone bp).b_blkno = s.b_blkno := by
  unfold iodone
  dsimp only
  split_ifs
  · rw [brelse_b_blkno]
    rfl
  · rfl

@[simp]
theorem iodone_d_active (bp : Ptr) (s : Bio π β) : (s.iodone bp).d_active = s.d_active := by
  unfold iodone
  dsimp only
  split_ifs
  · rw [brelse_d_active]
    rfl
  · rfl

@[simp]
theorem iodone_d_actf (bp : Ptr) (s : Bio π β) : (s.iodone bp).d_actf = s.d_actf := by
  unfold iodone
  dsimp only
  split_ifs
  · rw [brelse_d_actf]
    rfl
  · rfl

/-- `bp->b_blkno + NRKBLK * minor(bp->b_dev)`. -/
def rkSector (dev blkno : Dev) : BitVec 16 := blkno + BitVec.ofNat 16 NRKBLK * (dev &&& 0xff)

/-- Send the block to the disk, if it is to be written. -/
def devstart (bp : Ptr) (s : Bio π β) : Bio π β :=
  if (s.b_flags bp).b_read then s
  else { s with disk := update s.disk (rkSector (s.b_dev bp) (s.b_blkno bp)) (s.data bp) }

def rkstart (s : Bio π β) : Bio π β :=
  if s.d_actf = .null then s else devstart s.d_actf { s with d_active := s.d_active + 1 }

@[simp]
theorem rkstart_b_flags (s : Bio π β) : s.rkstart.b_flags = s.b_flags := by
  unfold rkstart devstart
  split_ifs <;> rfl

@[simp]
theorem rkstart_b_dev (s : Bio π β) : s.rkstart.b_dev = s.b_dev := by
  unfold rkstart devstart
  split_ifs <;> rfl

@[simp]
theorem rkstart_b_blkno (s : Bio π β) : s.rkstart.b_blkno = s.b_blkno := by
  unfold rkstart devstart
  split_ifs <;> rfl

/-- `rkstart` makes the drive active, if there is a request. -/
theorem rkstart_d_active (s : Bio π β) :
    s.rkstart.d_active = if s.d_actf = .null then s.d_active else s.d_active + 1 := by
  unfold rkstart devstart
  split_ifs <;> rfl

/-- The block number is beyond the end of the (possibly interleaved) drives. -/
def rkRejects (dev blkno : Dev) : Bool :=
  let d := (dev &&& 0xff) - 7
  (BitVec.ofNat 16 NRKBLK * if d.sle 0 then 1 else d).sle blkno

def rkstrategy (bp : Ptr) (s : Bio π β) : Bio π β :=
  if rkRejects (s.b_dev bp) (s.b_blkno bp) then
    iodone bp (s.setFlags bp fun fl => { fl with b_error := true })
  else
    let s := { s with av_forw := update s.av_forw bp .null }
    let s :=
      if s.d_actf = .null then { s with d_actf := bp }
      else { s with av_forw := update s.av_forw s.d_actl bp }
    let s := { s with d_actl := bp }
    if s.d_active = 0 then rkstart s else s

/-- `rkstrategy` leaves the flags of the others alone. -/
theorem rkstrategy_flags_of_ne {bp x : Ptr} (hx : x ≠ bp) (hx' : x ≠ .bfreelist) (s : Bio π β) :
    (s.rkstrategy bp).b_flags x = s.b_flags x := by
  unfold rkstrategy
  dsimp only
  split_ifs
  · rw [iodone_flags_of_ne hx hx', setFlags_of_ne hx]
  all_goals first | rfl | rw [rkstart_b_flags]

/-- A request that is not rejected changes no header but for its links. -/
theorem rkstrategy_queued {bp : Ptr} {s : Bio π β}
    (hok : rkRejects (s.b_dev bp) (s.b_blkno bp) = false) :
    (s.rkstrategy bp).b_flags = s.b_flags ∧ (s.rkstrategy bp).b_dev = s.b_dev ∧
      (s.rkstrategy bp).b_blkno = s.b_blkno := by
  unfold rkstrategy
  dsimp only
  rw [if_neg (by simp [hok])]
  split_ifs <;> simp

/-- `rkstrategy` does not make a buffer asynchronous that it rejects. -/
theorem rkstrategy_async_rejected {bp : Ptr} {s : Bio π β}
    (hreject : rkRejects (s.b_dev bp) (s.b_blkno bp) = true)
    (ha : (s.b_flags bp).b_async = false) :
    ((s.rkstrategy bp).b_flags bp).b_async = false := by
  unfold rkstrategy
  rw [if_pos hreject]
  apply iodone_async
  rwa [setFlags_self]

/-- A rejected request does not start the drive. -/
theorem rkstrategy_d_active_rejected {bp : Ptr} {s : Bio π β}
    (hreject : rkRejects (s.b_dev bp) (s.b_blkno bp) = true) :
    (s.rkstrategy bp).d_active = s.d_active := by
  unfold rkstrategy
  rw [if_pos hreject, iodone_d_active]
  rfl

/-- After a request the disk is active. -/
theorem rkstrategy_d_active {bp : Ptr} {s : Bio π β} (hbp : bp ≠ .null)
    (hok : rkRejects (s.b_dev bp) (s.b_blkno bp) = false)
    (hactive : s.d_active = 0 → s.d_actf = .null) : (s.rkstrategy bp).d_active ≠ 0 := by
  unfold rkstrategy
  dsimp only
  rw [if_neg (by simp [hok])]
  by_cases hfirst : s.d_actf = .null
  · simp only [hfirst, if_true]
    split_ifs with hzero
    · rw [rkstart_d_active, if_neg hbp]
      exact Nat.succ_ne_zero _
    · exact hzero
  · have hzero : s.d_active ≠ 0 := mt hactive hfirst
    simp only [if_neg hfirst]
    rwa [if_neg hzero]

/-- Fetch the block from the disk, if it is to be read. -/
def fetch (bp : Ptr) (s : Bio π β) : Bio π β :=
  if (s.b_flags bp).b_read then
    { s with data := update s.data bp (s.disk (rkSector (s.b_dev bp) (s.b_blkno bp))) }
  else s

@[simp]
theorem fetch_b_flags (bp : Ptr) (s : Bio π β) : (s.fetch bp).b_flags = s.b_flags := by
  unfold fetch
  split <;> rfl

@[simp]
theorem fetch_b_dev (bp : Ptr) (s : Bio π β) : (s.fetch bp).b_dev = s.b_dev := by
  unfold fetch
  split <;> rfl

@[simp]
theorem fetch_b_blkno (bp : Ptr) (s : Bio π β) : (s.fetch bp).b_blkno = s.b_blkno := by
  unfold fetch
  split <;> rfl

@[simp]
theorem fetch_av_forw (bp : Ptr) (s : Bio π β) : (s.fetch bp).av_forw = s.av_forw := by
  unfold fetch
  split <;> rfl

/-- The interrupt at the end of a transfer: `ideintr`, which fetches the block, and `rkintr`. -/
def rkintr (s : Bio π β) : Bio π β :=
  if s.d_active = 0 then s
  else
    let bp := s.d_actf
    let s := s.fetch bp
    rkstart (iodone bp { s with d_active := 0, d_actf := s.av_forw bp })

/-- The interrupt concerns the first request only. -/
theorem rkintr_flags_of_ne {x : Ptr} {s : Bio π β} (hx : x ≠ s.d_actf) (hx' : x ≠ .bfreelist) :
    s.rkintr.b_flags x = s.b_flags x := by
  unfold rkintr
  split
  · rfl
  · rw [rkstart_b_flags, iodone_flags_of_ne hx hx', fetch_b_flags]

/-- The disk is active as long as there are requests. -/
theorem rkintr_d_active {s : Bio π β} (hactive : s.d_active ≠ 0) :
    s.rkintr.d_active = if s.av_forw s.d_actf = .null then 0 else 1 := by
  unfold rkintr
  rw [if_neg hactive]
  dsimp only
  rw [rkstart_d_active, iodone_d_actf, iodone_d_active]
  dsimp only
  rw [fetch_av_forw]

/-- The interrupt makes no buffer asynchronous. -/
theorem rkintr_async {s : Bio π β} {x : Ptr} (hx : x ≠ .bfreelist)
    (ha : (s.b_flags x).b_async = false) : (s.rkintr.b_flags x).b_async = false := by
  by_cases hfirst : x = s.d_actf
  · subst hfirst
    unfold rkintr
    split
    · exact ha
    · rw [rkstart_b_flags]
      apply iodone_async
      rwa [fetch_b_flags]
  · rwa [rkintr_flags_of_ne hfirst hx]

/-- Without an error the interrupt leaves the devices alone. -/
theorem rkintr_b_dev {s : Bio π β} (herror : (s.b_flags s.d_actf).b_error = false) :
    s.rkintr.b_dev = s.b_dev := by
  unfold rkintr
  split
  · rfl
  · rw [rkstart_b_dev, iodone_b_dev (by simpa using herror), fetch_b_dev]

@[simp]
theorem rkintr_b_blkno (s : Bio π β) : s.rkintr.b_blkno = s.b_blkno := by
  unfold rkintr
  split
  · rfl
  · rw [rkstart_b_blkno, iodone_b_blkno, fetch_b_blkno]

/-- `(*bdevsw[major(bp->b_dev)].d_strategy)(bp)`; `none` is a call through a wild pointer. -/
def strategy (bp : Ptr) (s : Bio π β) : Option (Bio π β) :=
  (devtab (s.b_dev bp)).map fun _ => rkstrategy bp s

/-! ## Initialization -/

/-- One turn of the loop of `binit`. -/
def binitBuf (s : Bio π β) (bp : Ptr) : Bio π β :=
  let s := { s with b_dev := update s.b_dev bp (-1) }
  let s := { s with b_back := update s.b_back bp .bfreelist }
  let s := { s with b_forw := update s.b_forw bp (s.b_forw .bfreelist) }
  let s := { s with b_back := update s.b_back (s.b_forw .bfreelist) bp }
  let s := { s with b_forw := update s.b_forw .bfreelist bp }
  let s := s.setFlags bp fun _ => { b_busy := true }
  brelse bp s

/-- Initialize the buffer I/O system by freeing all buffers and setting all device buffer lists to
empty. -/
def binit (s : Bio π β) : Bio π β :=
  let s :=
    { s with
      av_back := update s.av_back .bfreelist .bfreelist
      av_forw := update s.av_forw .bfreelist .bfreelist
      b_back := update s.b_back .bfreelist .bfreelist
      b_forw := update s.b_forw .bfreelist .bfreelist }
  let s := ((List.finRange NBUF).map Ptr.buf).foldl binitBuf s
  { s with b_forw := update s.b_forw .rktab .rktab, b_back := update s.b_back .rktab .rktab }

/-- The zeroed memory that the kernel is loaded into. -/
def zeroed (zero : β) (disk : BitVec 16 → β) : Bio π β where
  b_flags _ := {}
  b_forw _ := .null
  b_back _ := .null
  av_forw _ := .null
  av_back _ := .null
  b_dev _ := 0
  b_blkno _ := 0
  d_active := 0
  d_actf := .null
  d_actl := .null
  p_wchan _ := none
  data _ := zero
  disk := disk

end Bio

/-! ## Processes -/

/-- What `getblk` returns to. -/
inductive GetblkRet
  | user
  | bread (dev blkno : Dev)
  /-- The first call of `breada`. -/
  | breada (dev blkno rablkno : Dev)
  /-- The call of `breada` for the read-ahead block. -/
  | readahead (dev blkno : Dev) (rbp : Option Ptr)

/-- What `bwrite` returns to. -/
inductive BwriteRet
  | user
  | getblk (dev blkno : Dev) (k : GetblkRet)
  | bflush (dev : Dev)

/-- What `iowait` returns to: the end of `bread` and `breada`, or of `bwrite`. -/
inductive IowaitRet
  | read (dev blkno : Dev)
  | write (k : BwriteRet)

/-- Before which piece of code a process stands. -/
inductive Pc
  /-- Outside of these routines. -/
  | user
  /-- `loop` of `getblk`. -/
  | getblk (dev blkno : Dev) (k : GetblkRet)
  /-- The search has stopped at `bp`. -/
  | getblkFound (bp : Ptr) (dev blkno : Dev) (k : GetblkRet)
  /-- `bp` has the block and is not busy. -/
  | getblkTake (bp : Ptr) (k : GetblkRet)
  /-- No buffer has the block. -/
  | getblkAvail (dev blkno : Dev) (k : GetblkRet)
  /-- The available list is not empty. -/
  | getblkOldest (dev blkno : Dev) (k : GetblkRet)
  /-- `bp` has been taken off the available list. -/
  | getblkReuse (bp : Ptr) (dev blkno : Dev) (k : GetblkRet)
  /-- `getblk` has returned `bp` to `bread`. -/
  | bread (bp : Ptr) (dev blkno : Dev)
  | breada (dev blkno rablkno : Dev)
  | breadaRead (bp : Ptr) (dev blkno rablkno : Dev)
  | readahead (dev blkno rablkno : Dev) (rbp : Option Ptr)
  | readaheadRead (rabp : Ptr) (dev blkno : Dev) (rbp : Option Ptr)
  | bwrite (bp : Ptr) (k : BwriteRet)
  | iowait (bp : Ptr) (k : IowaitRet)
  /-- The call of `brelse` that ends a routine. -/
  | brelse (bp : Ptr) (k : BwriteRet)
  | bflush (dev : Dev)

/-- What a process can call. -/
inductive Call
  | getblk (dev blkno : Dev)
  | bread (dev blkno : Dev)
  | breada (dev blkno rablkno : Dev)
  | bwrite (bp : Ptr)
  | bawrite (bp : Ptr)
  | bdwrite (bp : Ptr)
  | brelse (bp : Ptr)
  | bflush (dev : Dev)

/-- The buffer that a call releases. -/
def Call.releases : Call → Option Ptr
  | .bwrite bp | .bawrite bp | .bdwrite bp | .brelse bp => some bp
  | _ => none

/-- The headers and the processes. -/
structure BioSys (π β : Type) extends Bio π β where
  pc : π → Pc
  /-- The buffers that a process has obtained and not released. -/
  held : π → List Ptr
  /-- The process that is in a piece of these routines and has not slept since. -/
  cur : Option π

/-- What can happen next. -/
inductive BioAct (π β : Type)
  | call (p : π) (c : Call)
  | run (p : π)
  /-- A process changes the contents of a buffer that it holds. -/
  | modify (p : π) (bp : Ptr) (val : β)
  | intr

namespace BioSys

variable {π β : Type} [DecidableEq π]

/-- Process `p` goes on to `k`. -/
def goto (p : π) (k : Pc) (s : BioSys π β) : BioSys π β :=
  { s with pc := update s.pc p k, cur := some p }

/-- Process `p` leaves these routines. -/
def leave (p : π) (s : BioSys π β) : BioSys π β :=
  { s with pc := update s.pc p .user, cur := none }

/-- Process `p` leaves with the buffer `bp`. -/
def leaveWith (p : π) (bp : Ptr) (s : BioSys π β) : BioSys π β :=
  leave p { s with held := update s.held p (bp :: s.held p) }

/-- Process `p` sleeps, and stands before `k` when it wakes up. -/
def sleep (p : π) (chan : Ptr) (k : Pc) (s : BioSys π β) : BioSys π β :=
  { s with pc := update s.pc p k, cur := none, p_wchan := update s.p_wchan p (some chan) }

/-- `getblk` returns `bp`. -/
def getblkReturn (p : π) (bp : Ptr) (k : GetblkRet) (s : BioSys π β) : BioSys π β :=
  match k with
  | .user => s.leaveWith p bp
  | .bread dev blkno => s.goto p (.bread bp dev blkno)
  | .breada dev blkno rablkno => s.goto p (.breadaRead bp dev blkno rablkno)
  | .readahead dev blkno rbp => s.goto p (.readaheadRead bp dev blkno rbp)

/-- `bwrite` returns. -/
def bwriteReturn (p : π) (k : BwriteRet) (s : BioSys π β) : BioSys π β :=
  match k with
  | .user => s.leave p
  | .getblk dev blkno k => s.goto p (.getblk dev blkno k)
  | .bflush dev => s.goto p (.bflush dev)

/-- The end of `breada`. -/
def breadaReturn (p : π) (dev blkno : Dev) (rbp : Option Ptr) (s : BioSys π β) : BioSys π β :=
  match rbp with
  | none => s.goto p (.getblk dev blkno (.bread dev blkno))
  | some bp => s.goto p (.iowait bp (.read dev blkno))

/-- Run the piece of code that process `p` stands before. `none` is a panic, a wild pointer or a
loop that does not end. -/
def runPiece (p : π) (s : BioSys π β) : Option (BioSys π β) :=
  match s.pc p with
  | .user => none
  -- a negative device has no list to look in: any free buffer will do
  | .getblk dev blkno k =>
    if dev.slt 0 then some (s.goto p (.getblkAvail dev blkno k))
    else
      (s.incore dev blkno).map fun
        | some bp => s.goto p (.getblkFound bp dev blkno k)
        | none => s.goto p (.getblkAvail dev blkno k)
  | .getblkFound bp dev blkno k =>
    -- sleep until its holder gives it up, then look again
    if (s.b_flags bp).b_busy then
      some (sleep p bp (.getblk dev blkno k)
        { s with toBio := s.setFlags bp fun fl => { fl with b_wanted := true } })
    else some (s.goto p (.getblkTake bp k))
  | .getblkTake bp k => some (getblkReturn p bp k { s with toBio := s.notavail bp })
  | .getblkAvail dev blkno k =>
    -- no buffer is free: the list's own header is what the process waits on
    if s.av_forw .bfreelist = .bfreelist then
      some (sleep p .bfreelist (.getblk dev blkno k)
        { s with toBio := s.setFlags .bfreelist fun fl => { fl with b_wanted := true } })
    else some (s.goto p (.getblkOldest dev blkno k))
  | .getblkOldest dev blkno k =>
    let bp := s.av_forw .bfreelist
    some (goto p (.getblkReuse bp dev blkno k) { s with toBio := s.notavail bp })
  | .getblkReuse bp dev blkno k =>
    -- the old contents go out first, and the search for a buffer starts again
    if (s.b_flags bp).b_delwri then
      some (goto p (.bwrite bp (.getblk dev blkno k))
        { s with toBio := s.setFlags bp fun fl => { fl with b_async := true } })
    else
      (Bio.getblkTab dev).map fun dp =>
        getblkReturn p bp k { s with toBio := s.assign bp dp dev blkno }
  | .bread bp dev blkno =>
    if (s.b_flags bp).b_done then some (s.leaveWith p bp)
    else
      ((s.setFlags bp fun fl => { fl with b_read := true }).strategy bp).map fun b =>
        goto p (.iowait bp (.read dev blkno)) { s with toBio := b }
  | .breada dev blkno rablkno =>
    (s.incore dev blkno).map fun
      | some _ => s.goto p (.readahead dev blkno rablkno none)
      | none => s.goto p (.getblk dev blkno (.breada dev blkno rablkno))
  | .breadaRead bp dev blkno rablkno =>
    if (s.b_flags bp).b_done then some (s.goto p (.readahead dev blkno rablkno (some bp)))
    else
      ((s.setFlags bp fun fl => { fl with b_read := true }).strategy bp).map fun b =>
        goto p (.readahead dev blkno rablkno (some bp)) { s with toBio := b }
  -- block zero asks for no read-ahead
  | .readahead dev blkno rablkno rbp =>
    if rablkno = 0 then some (s.breadaReturn p dev blkno rbp)
    else
      -- the block is in the cache already: nothing to read ahead
      (s.incore dev rablkno).map fun
        | some _ => s.breadaReturn p dev blkno rbp
        | none => s.goto p (.getblk dev rablkno (.readahead dev blkno rbp))
  | .readaheadRead rabp dev blkno rbp =>
    if (s.b_flags rabp).b_done then
      some (breadaReturn p dev blkno rbp { s with toBio := s.toBio.brelse rabp })
    else
      ((s.setFlags rabp fun fl => { fl with b_read := true, b_async := true }).strategy rabp).map
        fun b => breadaReturn p dev blkno rbp { s with toBio := b }
  | .bwrite bp k =>
    -- the flags as they were on entry decide whether to wait
    let flag := s.b_flags bp
    ((s.setFlags bp fun fl =>
      { fl with b_read := false, b_done := false, b_error := false, b_delwri := false }).strategy
        bp).map fun b =>
      if flag.b_async then bwriteReturn p k { s with toBio := b }
      else goto p (.iowait bp (.write k)) { s with toBio := b }
  | .iowait bp k =>
    if (s.b_flags bp).b_done then
      match k with
      | .read _ _ => some (s.leaveWith p bp)
      | .write k => some (s.goto p (.brelse bp k))
    else some (s.sleep p bp (.iowait bp k))
  | .brelse bp k => some (bwriteReturn p k { s with toBio := s.toBio.brelse bp })
  -- one delayed write at a time: its start may have changed the list
  | .bflush dev =>
    (ringFind s.av_forw .bfreelist
      (fun bp => (s.b_flags bp).b_delwri ∧ (dev = NODEV ∨ dev = s.b_dev bp)) NBUF
      (s.av_forw .bfreelist)).map fun
      | some bp =>
        goto p (.bwrite bp (.bflush dev))
          { s with toBio := (s.setFlags bp fun fl => { fl with b_async := true }).notavail bp }
      | none => s.leave p

/-- The beginning of a routine; the buffer that it releases is no longer held. -/
def enter (p : π) (c : Call) (s : BioSys π β) : BioSys π β :=
  match c with
  | .getblk dev blkno => s.goto p (.getblk dev blkno .user)
  | .bread dev blkno => s.goto p (.getblk dev blkno (.bread dev blkno))
  | .breada dev blkno rablkno => s.goto p (.breada dev blkno rablkno)
  | .bwrite bp => s.goto p (.bwrite bp .user)
  | .bawrite bp =>
    goto p (.bwrite bp .user)
      { s with toBio := s.setFlags bp fun fl => { fl with b_async := true } }
  | .bdwrite bp =>
    goto p (.brelse bp .user)
      { s with toBio := s.setFlags bp fun fl => { fl with b_delwri := true, b_done := true } }
  | .brelse bp => s.goto p (.brelse bp .user)
  | .bflush dev => s.goto p (.bflush dev)

/-- Take the buffer that `c` releases from those that `p` holds. -/
def giveUp (p : π) (c : Call) (s : BioSys π β) : Option (BioSys π β) :=
  match c.releases with
  | none => some s
  | some bp =>
    if bp ∈ s.held p then some { s with held := update s.held p ((s.held p).erase bp) } else none

/-- One step. A process releases only buffers that it holds. -/
def step (s : BioSys π β) : BioAct π β → Option (BioSys π β)
  | .call p c =>
    match s.cur, s.pc p with
    | none, .user => (s.giveUp p c).map (enter p c)
    | _, _ => none
  | .run p =>
    if s.cur = some p ∨ s.cur = none ∧ s.p_wchan p = none then s.runPiece p else none
  | .modify p bp val =>
    match s.cur, s.pc p with
    | none, .user => if bp ∈ s.held p then some { s with data := update s.data bp val } else none
    | _, _ => none
  | .intr => some { s with toBio := s.rkintr }

/-- The state after `binit`, with no process in these routines. -/
def boot (zero : β) (disk : BitVec 16 → β) : BioSys π β where
  toBio := (Bio.zeroed zero disk).binit
  pc _ := .user
  held _ := []
  cur := none

end BioSys

end UnixV6
