import UnixV6.Lib.Fifo
import UnixV6.Lib.Ring
import UnixV6.Lib.Run
import UnixV6.Dmr.RkSectors
import UnixV6.Dmr.Swap

/-!
# The queue of the disk (`dmr/rk.c`, `dmr/ide.c`)

Requests for the disk, of one or of many sectors, with the interrupts that end the sectors. The
queue runs through `av_forw`, as does the list of available buffers to which `iodone` gives an
asynchronous buffer back.

The processor takes the interrupt of the disk at priority 0 only. A call of `rkstrategy`, or of
`brelse`, is therefore cut where the priority is raised; the kernel does not preempt the process
that makes it. What the callers promise is in `step`: a buffer that is handed to `rkstrategy` is
busy and not in the queue, and a transfer of pages is no longer than core. Who sleeps and is woken
is left out, and so is the list of the device, which no routine here reads.

The log says what the driver does, and nothing reads it.
-/

open Function

namespace UnixV6.DiskQueue

/-- What a pointer to a header can point at here. -/
inductive Hdr
  | null
  | bfreelist
  | swbuf
  | buf (n : Fin NBUF)
  deriving DecidableEq

/-- One of the buffers of the cache. -/
def Hdr.IsBuf : Hdr → Prop
  | .buf _ => True
  | _ => False

instance (bp : Hdr) : Decidable bp.IsBuf := by
  cases bp <;> simp only [Hdr.IsBuf] <;> infer_instance

/-- A request: its buffer, its first sector and the number of its sectors. -/
structure Req where
  bp : Hdr
  sector : ℕ
  count : ℕ
  deriving DecidableEq

inductive Event
  | accept (r : Req)
  | reject (bp : Hdr)
  | start (r : Req)
  | command (sector : ℕ)
  | iodone (r : Req) (error : Bool)
  deriving DecidableEq

/-- Where a call stands that an interrupt can come into. -/
inductive Call
  | none
  /-- `rkstrategy`, before it puts the request into the queue. -/
  | queueing (bp : Hdr)
  /-- `rkstrategy`, before `iodone` for a request it rejects. -/
  | rejecting (bp : Hdr)
  /-- `brelse`, before it raises the priority. -/
  | releasing (bp : Hdr)
  deriving DecidableEq

/-- The headers, with `rktab`, and what `ide.c` keeps. -/
structure Disk extends Ide where
  b_flags : Hdr → BFlags
  av_forw : Hdr → Hdr
  av_back : Hdr → Hdr
  b_dev : Hdr → Dev
  b_wcount : Hdr → BitVec 16
  b_addr : Hdr → ℕ
  b_xmem : Hdr → ℕ
  b_blkno : Hdr → Dev
  d_active : ℕ
  d_errcnt : ℕ
  d_actf : Hdr
  d_actl : Hdr
  call : Call
  log : List Event

namespace Disk

/-- Change the flags of a header. -/
def setFlags (bp : Hdr) (f : BFlags → BFlags) (s : Disk) : Disk :=
  { s with b_flags := update s.b_flags bp (f (s.b_flags bp)) }

def logged (e : Event) (s : Disk) : Disk := { s with log := s.log ++ [e] }

/-! ## Lists of buffers -/

/-- `notavail`, at priority 6 throughout. -/
def notavail (bp : Hdr) (s : Disk) : Disk :=
  let s := { s with av_forw := update s.av_forw (s.av_back bp) (s.av_forw bp) }
  let s := { s with av_back := update s.av_back (s.av_forw bp) (s.av_back bp) }
  s.setFlags bp fun fl => { fl with b_busy := true }

/-- `brelse` before it raises the priority. -/
def brelseFlags (bp : Hdr) (s : Disk) : Disk :=
  let s :=
    if (s.b_flags .bfreelist).b_wanted then
      s.setFlags .bfreelist fun fl => { fl with b_wanted := false }
    else s
  if (s.b_flags bp).b_error then { s with b_dev := update s.b_dev bp (s.b_dev bp ||| 0xff) } else s

/-- `brelse` at priority 6. -/
def brelseLinks (bp : Hdr) (s : Disk) : Disk :=
  let s := s.setFlags bp fun fl => { fl with b_wanted := false, b_busy := false, b_async := false }
  let s := { s with av_forw := update s.av_forw (s.av_back .bfreelist) bp }
  let s := { s with av_back := update s.av_back bp (s.av_back .bfreelist) }
  let s := { s with av_back := update s.av_back .bfreelist bp }
  { s with av_forw := update s.av_forw bp .bfreelist }

/-! ## The driver -/

/-- The number of sectors that `devstart` gets for a buffer: that of whole pages if it is `B_PHYS`,
as an `unsigned int`. -/
def nsectors (bp : Hdr) (s : Disk) : ℕ :=
  if (s.b_flags bp).b_phys then 8 * (s.b_wcount bp).toNat % 65536 else 1

/-- What a buffer asks for, as the log has it. -/
def reqOf (bp : Hdr) (s : Disk) : Req :=
  ⟨bp, (Bio.rkSector (s.b_dev bp) (s.b_blkno bp)).toNat, s.nsectors bp⟩

/-- `iodone`, before `brelse`. -/
def markDone (bp : Hdr) (s : Disk) : Disk :=
  (s.logged (.iodone (s.reqOf bp) (s.b_flags bp).b_error)).setFlags bp
    fun fl => { fl with b_done := true }

/-- The end of `iodone` for a buffer that is not asynchronous. -/
def unwant (bp : Hdr) (s : Disk) : Disk := s.setFlags bp fun fl => { fl with b_wanted := false }

/-- Mark I/O complete on a buffer, release it if I/O is asynchronous. -/
def iodone (bp : Hdr) (s : Disk) : Disk :=
  let s := s.markDone bp
  if (s.b_flags bp).b_async then (s.brelseFlags bp).brelseLinks bp else s.unwant bp

/-- Start the transfer of a buffer. `ideio` takes the number of sectors as an `int`. -/
def devstart (bp : Hdr) (s : Disk) : Disk :=
  let (seg, off) :=
    if (s.b_flags bp).b_phys then (s.b_xmem bp * 256 % 65536, 0) else (core_ds, s.b_addr bp)
  let n := s.nsectors bp
  { s.logged (.command (s.reqOf bp).sector) with
    toIde := ideio (s.reqOf bp).sector (if n < 32768 then n else n - 65536) off seg
      (if (s.b_flags bp).b_read then 1 else 0) s.toIde }

def rkstart (s : Disk) : Disk :=
  if s.d_actf = .null then s
  else devstart s.d_actf { s.logged (.start (s.reqOf s.d_actf)) with d_active := s.d_active + 1 }

/-- A request has ended: finish it and start the next. -/
def rkintr (s : Disk) : Disk :=
  if s.d_active = 0 then s
  else
    let bp := s.d_actf
    rkstart (iodone bp { s with d_active := 0, d_errcnt := 0, d_actf := s.av_forw bp })

/-- The interrupt that ends a sector. -/
def ideintr (s : Disk) : Disk :=
  let s := { s with toIde := ideintrData s.toIde }
  if s.io_count ≤ 0 then rkintr s
  else
    { s.logged (.command s.io_sector) with
      toIde := idestart s.io_sector (if s.io_cmd = 0 then s.io_buf else 0) s.io_seg s.toIde }

/-- `rkstrategy` before it raises the priority. -/
def rkstrategy (bp : Hdr) (s : Disk) : Disk :=
  if Bio.rkRejects (s.b_dev bp) (s.b_blkno bp) then
    { (s.logged (.reject bp)).setFlags bp fun fl => { fl with b_error := true } with
      call := .rejecting bp }
  else { s with av_forw := update s.av_forw bp .null, call := .queueing bp }

/-- Put a buffer behind the last one of the queue. -/
def putLast (bp : Hdr) (s : Disk) : Disk :=
  let s :=
    if s.d_actf = .null then { s with d_actf := bp }
    else { s with av_forw := update s.av_forw s.d_actl bp }
  { s with d_actl := bp }

/-- `rkstrategy` at priority 5. -/
def enqueue (bp : Hdr) (s : Disk) : Disk :=
  let s := (s.logged (.accept (s.reqOf bp))).putLast bp
  if s.d_active = 0 then rkstart s else s

/-! ## Initialization -/

/-- The zeroed memory that the kernel is loaded into. The disk is idle. -/
def zeroed (i : Ide) : Disk where
  toIde := { i with drive := { i.drive with irq := false } }
  b_flags _ := {}
  av_forw _ := .null
  av_back _ := .null
  b_dev _ := 0
  b_wcount _ := 0
  b_addr _ := 0
  b_xmem _ := 0
  b_blkno _ := 0
  d_active := 0
  d_errcnt := 0
  d_actf := .null
  d_actl := .null
  call := .none
  log := []

/-- One turn of the loop of `binit`. -/
def binitBuf (s : Disk) (bp : Hdr) : Disk :=
  let s := { s with b_dev := update s.b_dev bp (-1) }
  let s := s.setFlags bp fun _ => { b_busy := true }
  (s.brelseFlags bp).brelseLinks bp

/-- Free all buffers. -/
def binit (s : Disk) : Disk :=
  ((List.finRange NBUF).map Hdr.buf).foldl binitBuf { s with
    av_back := update s.av_back .bfreelist .bfreelist
    av_forw := update s.av_forw .bfreelist .bfreelist }

/-- The buffers in the queue: those that `av_forw` runs through from `d_actf` on. -/
def walk (next : Hdr → Hdr) : ℕ → Hdr → List Hdr
  | 0, _ => []
  | n + 1, bp => if bp = .null then [] else bp :: walk next n (next bp)

/-- Whether a buffer is in the queue. -/
def Queued (bp : Hdr) (s : Disk) : Prop := bp ∈ walk s.av_forw (NBUF + 1) s.d_actf

instance (bp : Hdr) (s : Disk) : Decidable (Queued bp s) := by
  unfold Queued
  infer_instance

end Disk

/-! ## Steps -/

inductive Act
  /-- A call of `rkstrategy`, by a caller that has filled in the header. -/
  | rkstrategy (bp : Hdr) (fl : BFlags) (b_dev b_blkno : Dev) (b_wcount : BitVec 16)
      (b_addr b_xmem : ℕ)
  /-- The call goes on. -/
  | proceed
  /-- The pending interrupt is taken. -/
  | intr
  /-- `getblk` or `bflush` takes an available buffer. -/
  | notavail (bp : Hdr)
  /-- A process releases a buffer that it has got. -/
  | brelse (bp : Hdr)
  /-- `swap` is through with its buffer. -/
  | swapDone

/-- What the callers of `rkstrategy` promise. The buffer is theirs: it is busy, or `swap` makes it
so, and no request for it is in the queue. The transfer is to come and has not failed. `swap` waits
for its own one, and core has 256 pages. -/
def Disk.Submits (bp : Hdr) (fl : BFlags) (b_wcount : BitVec 16) (s : Disk) : Prop :=
  ¬s.Queued bp ∧ fl.b_busy = true ∧ fl.b_done = false ∧ fl.b_error = false ∧
    (fl.b_phys = true → b_wcount.toNat ≤ 256) ∧
    match bp with
    | .buf _ => (s.b_flags bp).b_busy = true
    | .swbuf => (s.b_flags bp).b_busy = false ∧ fl.b_async = false
    | _ => False

instance (bp : Hdr) (fl : BFlags) (b_wcount : BitVec 16) (s : Disk) :
    Decidable (s.Submits bp fl b_wcount) := by
  unfold Disk.Submits
  cases bp <;> infer_instance

/-- A step of the system. A process does nothing else while a call is on its way. -/
def step (s : Disk) : Act → Option Disk
  | .rkstrategy bp fl b_dev b_blkno b_wcount b_addr b_xmem =>
    if s.call = .none ∧ s.Submits bp fl b_wcount then
      -- the caller has filled in the header before the call
      some (Disk.rkstrategy bp { s with
        b_flags := update s.b_flags bp fl
        b_dev := update s.b_dev bp b_dev
        b_blkno := update s.b_blkno bp b_blkno
        b_wcount := update s.b_wcount bp b_wcount
        b_addr := update s.b_addr bp b_addr
        b_xmem := update s.b_xmem bp b_xmem })
    else none
  | .proceed =>
    match s.call with
    | .none => none
    | .queueing bp => some { s.enqueue bp with call := .none }
    -- the two ends of the error path: a header that nobody waits for is released
    | .rejecting bp =>
      let s := s.markDone bp
      if (s.b_flags bp).b_async then some { s.brelseFlags bp with call := .releasing bp }
      else some { s.unwant bp with call := .none }
    | .releasing bp => some { s.brelseLinks bp with call := .none }
  | .intr =>
    -- the interrupt is taken only while the drive asks for it
    if s.drive.irq then some (Disk.ideintr { s with drive := { s.drive with irq := false } })
    else none
  | .notavail bp =>
    if s.call = .none ∧ bp.IsBuf ∧ (s.b_flags bp).b_busy = false then some (s.notavail bp) else none
  | .brelse bp =>
    if s.call = .none ∧ bp.IsBuf ∧ (s.b_flags bp).b_busy = true ∧ ¬s.Queued bp then
      some { s.brelseFlags bp with call := .releasing bp }
    else none
  | .swapDone =>
    if s.call = .none ∧ (s.b_flags .swbuf).b_busy = true ∧ (s.b_flags .swbuf).b_done = true then
      some (s.setFlags .swbuf fun fl => { fl with b_busy := false, b_wanted := false })
    else none

end UnixV6.DiskQueue
