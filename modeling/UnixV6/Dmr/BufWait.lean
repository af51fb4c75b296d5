import UnixV6.Dmr.BioLists

/-!
# Waiting for buffers (`dmr/bio.c`, `dmr/rk.c`)

The routines of the buffer cache together with `swap`, whose header `swbuf` goes through the same
disk queue. The cuts at the sleeps are those of `BioSys`, and so are the actions; what a linked list
is there is a list here: the available list from its oldest buffer, the buffers that the `devtab`
of the disk heads, and the requests of the disk, of which the first one is active. The contents of
the blocks, which no process waits for, are left out.
-/

open Function

namespace UnixV6.BufWait

/-- The headers, whose addresses are what processes sleep on. -/
inductive Hdr
  | bfreelist
  | swbuf
  | buf (n : Fin NBUF)
  deriving DecidableEq

/-- One of the buffers proper. -/
def Hdr.IsBuf : Hdr → Prop
  | .buf _ => True
  | _ => False

/-- The headers, the lists of them, and what the processes `π` sleep on. -/
structure Headers (π : Type) where
  b_flags : Hdr → BFlags
  b_dev : Hdr → Dev
  b_blkno : Hdr → Dev
  /-- The buffers on the list of the disk. -/
  rktab : List Hdr
  /-- The available list. -/
  avail : List Hdr
  /-- The requests, from `d_actf`. -/
  queue : List Hdr
  d_active : ℕ
  p_wchan : π → Option Hdr

namespace Headers

variable {π : Type}

/-- Change the flags of a header. -/
def setFlags (bp : Hdr) (f : BFlags → BFlags) (s : Headers π) : Headers π :=
  { s with b_flags := update s.b_flags bp (f (s.b_flags bp)) }

@[simp]
theorem setFlags_self (bp : Hdr) (f : BFlags → BFlags) (s : Headers π) :
    (s.setFlags bp f).b_flags bp = f (s.b_flags bp) :=
  update_self ..

theorem setFlags_of_ne {bp x : Hdr} (hx : x ≠ bp) (f : BFlags → BFlags) (s : Headers π) :
    (s.setFlags bp f).b_flags x = s.b_flags x :=
  update_of_ne hx ..

theorem setFlags_setFlags (bp : Hdr) (f g : BFlags → BFlags) (s : Headers π) :
    (s.setFlags bp f).setFlags bp g = s.setFlags bp fun fl => g (f fl) := by
  simp [setFlags]

def wakeup (chan : Hdr) (s : Headers π) : Headers π :=
  { s with p_wchan := fun p => if s.p_wchan p = some chan then none else s.p_wchan p }

theorem wakeup_p_wchan_ne (chan : Hdr) (s : Headers π) (r : π) :
    (s.wakeup chan).p_wchan r ≠ some chan := by
  simp only [wakeup]
  split_ifs with hr
  · simp
  · exact hr

/-- Unlink a buffer from the available list and mark it busy. -/
def notavail (bp : Hdr) (s : Headers π) : Headers π :=
  setFlags bp (fun fl => { fl with b_busy := true }) { s with avail := s.avail.erase bp }

/-- `bflush` sets `B_ASYNC` first. -/
theorem setFlags_notavail (bp : Hdr) (s : Headers π) :
    (s.setFlags bp fun fl => { fl with b_async := true }).notavail bp =
      (s.notavail bp).setFlags bp fun fl => { fl with b_async := true } := by
  simp [notavail, setFlags]

/-- Release the buffer, with no I/O implied. -/
def brelse (bp : Hdr) (s : Headers π) : Headers π :=
  let s := if (s.b_flags bp).b_wanted then wakeup bp s else s
  let s :=
    if (s.b_flags .bfreelist).b_wanted then
      wakeup .bfreelist (s.setFlags .bfreelist fun fl => { fl with b_wanted := false })
    else s
  let s :=
    if (s.b_flags bp).b_error then { s with b_dev := update s.b_dev bp (s.b_dev bp ||| 0xff) }
    else s
  let s := s.setFlags bp fun fl => { fl with b_wanted := false, b_busy := false, b_async := false }
  { s with avail := s.avail ++ [bp] }

/-- See if the block is associated with some buffer; `none` is not a device. -/
def incore (dev blkno : Dev) (s : Headers π) : Option (Option Hdr) :=
  (Bio.devtab dev).map fun _ =>
    s.rktab.find? fun bp => s.b_blkno bp = blkno ∧ s.b_dev bp = dev

/-- The end of `getblk`: reassign the buffer to the list `dp`. -/
def assign (bp : Hdr) (dp : Ptr) (dev blkno : Dev) (s : Headers π) : Headers π :=
  let s := s.setFlags bp fun _ => { b_busy := true }
  let s := { s with rktab := s.rktab.erase bp }
  let s := if dp = .rktab then { s with rktab := bp :: s.rktab } else s
  { s with b_dev := update s.b_dev bp dev, b_blkno := update s.b_blkno bp blkno }

/-- Mark I/O complete on a buffer, release it if I/O is asynchronous. -/
def iodone (bp : Hdr) (s : Headers π) : Headers π :=
  let s := s.setFlags bp fun fl => { fl with b_done := true }
  if (s.b_flags bp).b_async then brelse bp s
  else wakeup bp (s.setFlags bp fun fl => { fl with b_wanted := false })

def rkstart (s : Headers π) : Headers π :=
  if s.queue = [] then s else { s with d_active := s.d_active + 1 }

def rkstrategy (bp : Hdr) (s : Headers π) : Headers π :=
  if Bio.rkRejects (s.b_dev bp) (s.b_blkno bp) then
    iodone bp (s.setFlags bp fun fl => { fl with b_error := true })
  else
    let s := { s with queue := s.queue ++ [bp] }
    if s.d_active = 0 then rkstart s else s

/-- `(*bdevsw[major(bp->b_dev)].d_strategy)(bp)`; `none` is a call through a wild pointer. -/
def strategy (bp : Hdr) (s : Headers π) : Option (Headers π) :=
  (Bio.devtab (s.b_dev bp)).map fun _ => rkstrategy bp s

/-- The interrupt at the end of a transfer. -/
def rkintr (s : Headers π) : Headers π :=
  if s.d_active = 0 then s
  else
    match s.queue with
    | [] => s
    | bp :: q => rkstart (iodone bp { s with d_active := 0, queue := q })

/-- One turn of the loop of `binit`. -/
def binitBuf (s : Headers π) (bp : Hdr) : Headers π :=
  let s := { s with b_dev := update s.b_dev bp (-1) }
  brelse bp (s.setFlags bp fun _ => { b_busy := true })

/-- Free all buffers. -/
def binit (s : Headers π) : Headers π :=
  ((List.finRange NBUF).map Hdr.buf).foldl binitBuf { s with rktab := [], avail := [] }

/-- The zeroed memory that the kernel is loaded into. -/
def zeroed : Headers π where
  b_flags _ := {}
  b_dev _ := 0
  b_blkno _ := 0
  rktab := []
  avail := []
  queue := []
  d_active := 0
  p_wchan _ := none

end Headers

/-! ## Processes -/

/-- What `getblk` returns to. -/
inductive GetblkRet
  | user
  | bread (dev blkno : Dev)
  | breada (dev blkno rablkno : Dev)
  | readahead (dev blkno : Dev) (rbp : Option Hdr)

/-- What `bwrite` returns to. -/
inductive BwriteRet
  | user
  | getblk (dev blkno : Dev) (k : GetblkRet)
  | bflush (dev : Dev)

/-- What `iowait` returns to. -/
inductive IowaitRet
  | read
  | write (k : BwriteRet)

/-- Before which piece of code a process stands: those of `UnixV6.Pc`, and those of `swap`. -/
inductive Pc
  | user
  | getblk (dev blkno : Dev) (k : GetblkRet)
  | getblkFound (bp : Hdr) (dev blkno : Dev) (k : GetblkRet)
  | getblkTake (bp : Hdr) (k : GetblkRet)
  | getblkAvail (dev blkno : Dev) (k : GetblkRet)
  | getblkOldest (dev blkno : Dev) (k : GetblkRet)
  | getblkReuse (bp : Hdr) (dev blkno : Dev) (k : GetblkRet)
  | bread (bp : Hdr)
  | breada (dev blkno rablkno : Dev)
  | breadaRead (bp : Hdr) (dev blkno rablkno : Dev)
  | readahead (dev blkno rablkno : Dev) (rbp : Option Hdr)
  | readaheadRead (rabp : Hdr) (dev blkno : Dev) (rbp : Option Hdr)
  | bwrite (bp : Hdr) (k : BwriteRet)
  | iowait (bp : Hdr) (k : IowaitRet)
  | brelse (bp : Hdr) (k : BwriteRet)
  | bflush (dev : Dev)
  /-- The loop at the beginning of `swap`. -/
  | swap (blkno : Dev) (rdflg : Bool)
  /-- The loop of `swap` that waits for the transfer. -/
  | swapWait
  /-- The waiters for `swbuf` have been woken up. -/
  | swapClear

/-- What a process can call. -/
inductive Call
  | getblk (dev blkno : Dev)
  | bread (dev blkno : Dev)
  | breada (dev blkno rablkno : Dev)
  | bwrite (bp : Hdr)
  | bawrite (bp : Hdr)
  | bdwrite (bp : Hdr)
  | brelse (bp : Hdr)
  | bflush (dev : Dev)
  | swap (blkno : Dev) (rdflg : Bool)

/-- The buffer that a call releases. -/
def Call.releases : Call → Option Hdr
  | .bwrite bp | .bawrite bp | .bdwrite bp | .brelse bp => some bp
  | _ => none

/-- The headers and the processes. -/
structure Sys (π : Type) extends Headers π where
  pc : π → Pc
  /-- The buffers that a process has obtained and not released. -/
  held : π → List Hdr
  /-- The process that is in a piece of these routines and has not slept since. -/
  cur : Option π

/-- What can happen next. -/
inductive Act (π : Type)
  | call (p : π) (c : Call)
  | run (p : π)
  | intr

namespace Sys

variable {π : Type} [DecidableEq π]

/-- Process `p` goes on to `k`. -/
def goto (p : π) (k : Pc) (s : Sys π) : Sys π := { s with pc := update s.pc p k, cur := some p }

/-- Process `p` leaves these routines. -/
def leave (p : π) (s : Sys π) : Sys π := { s with pc := update s.pc p .user, cur := none }

/-- Process `p` leaves with the buffer `bp`. -/
def leaveWith (p : π) (bp : Hdr) (s : Sys π) : Sys π :=
  leave p { s with held := update s.held p (bp :: s.held p) }

/-- Process `p` sleeps, and stands before `k` when it wakes up. -/
def sleep (p : π) (chan : Hdr) (k : Pc) (s : Sys π) : Sys π :=
  { s with pc := update s.pc p k, cur := none, p_wchan := update s.p_wchan p (some chan) }

/-- `getblk` returns `bp`. -/
def getblkReturn (p : π) (bp : Hdr) (k : GetblkRet) (s : Sys π) : Sys π :=
  match k with
  | .user => s.leaveWith p bp
  | .bread _ _ => s.goto p (.bread bp)
  | .breada dev blkno rablkno => s.goto p (.breadaRead bp dev blkno rablkno)
  | .readahead dev blkno rbp => s.goto p (.readaheadRead bp dev blkno rbp)

/-- `bwrite` returns. -/
def bwriteReturn (p : π) (k : BwriteRet) (s : Sys π) : Sys π :=
  match k with
  | .user => s.leave p
  | .getblk dev blkno k => s.goto p (.getblk dev blkno k)
  | .bflush dev => s.goto p (.bflush dev)

/-- The end of `breada`. -/
def breadaReturn (p : π) (dev blkno : Dev) (rbp : Option Hdr) (s : Sys π) : Sys π :=
  match rbp with
  | none => s.goto p (.getblk dev blkno (.bread dev blkno))
  | some bp => s.goto p (.iowait bp .read)

/-- Run the piece of code that process `p` stands before. `none` is a panic or a wild pointer. -/
def runPiece (swapdev : Dev) (p : π) (s : Sys π) : Option (Sys π) :=
  match s.pc p with
  | .user => none
  | .getblk dev blkno k =>
    -- a negative device has no list to look in: any free buffer will do
    if dev.slt 0 then some (s.goto p (.getblkAvail dev blkno k))
    else
      (s.incore dev blkno).map fun
        | some bp => s.goto p (.getblkFound bp dev blkno k)
        | none => s.goto p (.getblkAvail dev blkno k)
  | .getblkFound bp dev blkno k =>
    -- sleep until its holder gives it up, then look again
    if (s.b_flags bp).b_busy then
      some (sleep p bp (.getblk dev blkno k)
        { s with toHeaders := s.setFlags bp fun fl => { fl with b_wanted := true } })
    else some (s.goto p (.getblkTake bp k))
  | .getblkTake bp k => some (getblkReturn p bp k { s with toHeaders := s.notavail bp })
  | .getblkAvail dev blkno k =>
    -- no buffer is free: the list's own header is what the process waits on
    if s.avail = [] then
      some (sleep p .bfreelist (.getblk dev blkno k)
        { s with toHeaders := s.setFlags .bfreelist fun fl => { fl with b_wanted := true } })
    else some (s.goto p (.getblkOldest dev blkno k))
  | .getblkOldest dev blkno k =>
    s.avail.head?.map fun bp =>
      goto p (.getblkReuse bp dev blkno k) { s with toHeaders := s.notavail bp }
  | .getblkReuse bp dev blkno k =>
    -- the old contents go out first, and the search for a buffer starts again
    if (s.b_flags bp).b_delwri then
      some (goto p (.bwrite bp (.getblk dev blkno k))
        { s with toHeaders := s.setFlags bp fun fl => { fl with b_async := true } })
    else
      (Bio.getblkTab dev).map fun dp =>
        getblkReturn p bp k { s with toHeaders := s.assign bp dp dev blkno }
  | .bread bp =>
    if (s.b_flags bp).b_done then some (s.leaveWith p bp)
    else
      ((s.setFlags bp fun fl => { fl with b_read := true }).strategy bp).map fun b =>
        goto p (.iowait bp .read) { s with toHeaders := b }
  | .breada dev blkno rablkno =>
    (s.incore dev blkno).map fun
      | some _ => s.goto p (.readahead dev blkno rablkno none)
      | none => s.goto p (.getblk dev blkno (.breada dev blkno rablkno))
  | .breadaRead bp dev blkno rablkno =>
    if (s.b_flags bp).b_done then some (s.goto p (.readahead dev blkno rablkno (some bp)))
    else
      ((s.setFlags bp fun fl => { fl with b_read := true }).strategy bp).map fun b =>
        goto p (.readahead dev blkno rablkno (some bp)) { s with toHeaders := b }
  | .readahead dev blkno rablkno rbp =>
    if rablkno = 0 then some (s.breadaReturn p dev blkno rbp)
    else
      (s.incore dev rablkno).map fun
        | some _ => s.breadaReturn p dev blkno rbp
        | none => s.goto p (.getblk dev rablkno (.readahead dev blkno rbp))
  | .readaheadRead rabp dev blkno rbp =>
    if (s.b_flags rabp).b_done then
      some (breadaReturn p dev blkno rbp { s with toHeaders := s.toHeaders.brelse rabp })
    else
      ((s.setFlags rabp fun fl => { fl with b_read := true, b_async := true }).strategy rabp).map
        fun b => breadaReturn p dev blkno rbp { s with toHeaders := b }
  | .bwrite bp k =>
    -- the flags as they were on entry decide whether to wait
    let flag := s.b_flags bp
    ((s.setFlags bp fun fl =>
      { fl with b_read := false, b_done := false, b_error := false, b_delwri := false }).strategy
        bp).map fun b =>
      if flag.b_async then bwriteReturn p k { s with toHeaders := b }
      else goto p (.iowait bp (.write k)) { s with toHeaders := b }
  | .iowait bp k =>
    if (s.b_flags bp).b_done then
      match k with
      | .read => some (s.leaveWith p bp)
      | .write k => some (s.goto p (.brelse bp k))
    else some (s.sleep p bp (.iowait bp k))
  | .brelse bp k => some (bwriteReturn p k { s with toHeaders := s.toHeaders.brelse bp })
  | .bflush dev =>
    match s.avail.find? fun bp =>
      (s.b_flags bp).b_delwri ∧ (dev = NODEV ∨ dev = s.b_dev bp) with
    | some bp =>
      some (goto p (.bwrite bp (.bflush dev))
        { s with toHeaders :=
            (s.setFlags bp fun fl => { fl with b_async := true }).notavail bp })
    | none => some (s.leave p)
  | .swap blkno rdflg =>
    if (s.b_flags .swbuf).b_busy then
      some (sleep p .swbuf (.swap blkno rdflg)
        { s with toHeaders := s.setFlags .swbuf fun fl => { fl with b_wanted := true } })
    else
      -- all of the flags are set at once, so a mark of B_WANTED is lost here
      let b := s.setFlags .swbuf fun _ => { b_busy := true, b_phys := true, b_read := rdflg }
      let b :=
        { b with
          b_dev := update b.b_dev .swbuf swapdev
          b_blkno := update b.b_blkno .swbuf blkno }
      (b.strategy .swbuf).map fun b => goto p .swapWait { s with toHeaders := b }
  | .swapWait =>
    if (s.b_flags .swbuf).b_done then
      some (goto p .swapClear
        { s with toHeaders :=
            -- whoever waits for the header itself is woken before the header is free
            if (s.b_flags .swbuf).b_wanted then s.toHeaders.wakeup .swbuf else s.toHeaders })
    else some (s.sleep p .swbuf .swapWait)
  | .swapClear =>
    some (leave p
      { s with toHeaders :=
          s.setFlags .swbuf fun fl => { fl with b_busy := false, b_wanted := false } })

/-- The beginning of a routine; the buffer that it releases is no longer held. -/
def enter (p : π) (c : Call) (s : Sys π) : Sys π :=
  match c with
  | .getblk dev blkno => s.goto p (.getblk dev blkno .user)
  | .bread dev blkno => s.goto p (.getblk dev blkno (.bread dev blkno))
  | .breada dev blkno rablkno => s.goto p (.breada dev blkno rablkno)
  | .bwrite bp => s.goto p (.bwrite bp .user)
  | .bawrite bp =>
    goto p (.bwrite bp .user)
      { s with toHeaders := s.setFlags bp fun fl => { fl with b_async := true } }
  | .bdwrite bp =>
    goto p (.brelse bp .user)
      { s with toHeaders := s.setFlags bp fun fl => { fl with b_delwri := true, b_done := true } }
  | .brelse bp => s.goto p (.brelse bp .user)
  | .bflush dev => s.goto p (.bflush dev)
  | .swap blkno rdflg => s.goto p (.swap blkno rdflg)

/-- Take the buffer that `c` releases from those that `p` holds. -/
def giveUp (p : π) (c : Call) (s : Sys π) : Option (Sys π) :=
  match c.releases with
  | none => some s
  | some bp =>
    if bp ∈ s.held p then some { s with held := update s.held p ((s.held p).erase bp) } else none

/-- One step. A process releases only buffers that it holds. -/
def step (swapdev : Dev) (s : Sys π) : Act π → Option (Sys π)
  | .call p c =>
    match s.cur, s.pc p with
    | none, .user => (s.giveUp p c).map (enter p c)
    | _, _ => none
  | .run p =>
    if s.cur = some p ∨ s.cur = none ∧ s.p_wchan p = none then s.runPiece swapdev p else none
  | .intr => some { s with toHeaders := s.rkintr }

/-- The state after `binit`, with no process in these routines. -/
def boot : Sys π where
  toHeaders := Headers.zeroed.binit
  pc _ := .user
  held _ := []
  cur := none

end Sys

end UnixV6.BufWait
