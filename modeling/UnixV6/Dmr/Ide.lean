import UnixV6.H.Buf

/-!
# The disk driver (`dmr/rk.c`, `dmr/ide.c`)

A request for the disk is queued on `rktab`, started sector by sector through the ports of an ATA
controller, and advanced by the interrupt that ends each sector. Pointers and `int`s have 16 bits,
so a buffer is a 16 bit offset in the segment `io_seg`, and core is the 20 bit space of bytes that
segments and offsets address.

Of the controller the model has what the driver uses: the registers that select a sector, and the
commands to read and to write one sector. It is ready whenever `idewait` asks. A write command
stores the 256 words sent to the data port, a read command holds the 256 words of the sector ready
there, and each raises one interrupt.
-/

open Function

namespace UnixV6

abbrev Byte : Type := BitVec 8
abbrev Word : Type := BitVec 16

/-! ## Core -/

/-- Bytes of core by 20 bit address. -/
abbrev Core : Type := ℕ → Byte

/-- The address of offset `off` in segment `seg`. -/
def linear (off seg : ℕ) : ℕ := seg * 16 + off

/-- The word at `off` in `seg`, low byte first. -/
def rdword (mem : Core) (off seg : ℕ) : Word :=
  mem (linear off seg + 1) ++ mem (linear off seg)

/-- The low and the high byte of a word. -/
def lobyte (w : Word) : Byte := w.extractLsb' 0 8
@[inherit_doc lobyte] def hibyte (w : Word) : Byte := w.extractLsb' 8 8

def wrword (mem : Core) (off seg : ℕ) (val : Word) : Core :=
  update (update mem (linear off seg) (lobyte val)) (linear off seg + 1) (hibyte val)

/-! ## The controller -/

/-- Where the transfer of a sector through the data port stands. -/
inductive Xfer
  | idle
  /-- The host reads the words of `buf` from `pos` on. -/
  | toHost (buf : ℕ → Word) (pos : ℕ)
  /-- The host has written `pos` words. -/
  | fromHost (buf : ℕ → Word) (pos : ℕ)

/-- An ATA controller and the words its disk stores. -/
structure Drive where
  sectors : ℕ → ℕ → Word
  count : Byte
  lba0 : Byte
  lba1 : Byte
  lba2 : Byte
  head : Byte
  xfer : Xfer
  /-- An interrupt is pending. -/
  irq : Bool

namespace Drive

/-- The sector that the registers select. -/
def lba (d : Drive) : ℕ := d.lba0.toNat + 256 * d.lba1.toNat + 65536 * d.lba2.toNat

end Drive

/-- ATA protocol commands. -/
def IDE_CMD_READ : Byte := 0x20
@[inherit_doc IDE_CMD_READ] def IDE_CMD_WRITE : Byte := 0x30

/-- Write a byte to a port. -/
def outportb (port : ℕ) (val : Byte) (d : Drive) : Drive :=
  match port with
  | 0x1f2 => { d with count := val }
  | 0x1f3 => { d with lba0 := val }
  | 0x1f4 => { d with lba1 := val }
  | 0x1f5 => { d with lba2 := val }
  | 0x1f6 => { d with head := val }
  | 0x1f7 =>
    if val = IDE_CMD_READ then { d with xfer := .toHost (d.sectors d.lba) 0, irq := true }
    else if val = IDE_CMD_WRITE then { d with xfer := .fromHost (fun _ => 0) 0 }
    else d
  | _ => d

/-- Write a word to the data port. The last word of a sector stores it. -/
def outport (val : Word) (d : Drive) : Drive :=
  match d.xfer with
  | .fromHost buf pos =>
    if pos + 1 = 256 then
      { d with
        sectors := update d.sectors d.lba (update buf pos val), xfer := .idle, irq := true }
    else { d with xfer := .fromHost (update buf pos val) (pos + 1) }
  | _ => d

/-- Read a word from the data port. -/
def inport (d : Drive) : Word × Drive :=
  match d.xfer with
  | .toHost buf pos => (buf pos, { d with xfer := .toHost buf (pos + 1) })
  | _ => (0, d)

/-! ## `ide.c` -/

/-- The static variables of `ide.c`, with core and the controller. -/
structure Ide where
  mem : Core
  drive : Drive
  io_sector : ℕ
  io_count : ℤ
  io_cmd : ℕ
  io_buf : ℕ
  io_seg : ℕ

/-- The first `n` turns of the loop of `idestart`: send words from `data` on. -/
def sendWords (mem : Core) (data seg : ℕ) : ℕ → Drive → Drive
  | 0, d => d
  | n + 1, d => outport (rdword mem ((data + 2 * n) % 65536) seg) (sendWords mem data seg n d)

/-- Start the request for one sector: a write if there is data. -/
def idestart (sector data seg : ℕ) (s : Ide) : Ide :=
  let d := outportb 0x3f6 0 s.drive
  let d := outportb 0x1f2 1 d
  let d := outportb 0x1f3 (BitVec.ofNat 8 sector) d
  let d := outportb 0x1f4 (BitVec.ofNat 8 (sector / 256)) d
  let d := outportb 0x1f5 0 d
  let d := outportb 0x1f6 0xe0 d
  if data ≠ 0 then { s with drive := sendWords s.mem data seg 256 (outportb 0x1f7 IDE_CMD_WRITE d) }
  else { s with drive := outportb 0x1f7 IDE_CMD_READ d }

/-- Start the transfer of `count` sectors from or to `buf` in `seg`. -/
def ideio (sector : ℕ) (count : ℤ) (buf seg cmd : ℕ) (s : Ide) : Ide :=
  let s := { s with io_sector := sector, io_count := count, io_buf := buf, io_seg := seg, io_cmd := cmd }
  idestart s.io_sector (if cmd = 0 then s.io_buf else 0) s.io_seg s

/-- The first `n` turns of the loop of `ideintr`: fetch words to `io_buf` on. -/
def recvWords : ℕ → Ide → Ide
  | 0, s => s
  | n + 1, s =>
    let s := recvWords n s
    let (w, drive) := inport s.drive
    { s with mem := wrword s.mem ((s.io_buf + 2 * n) % 65536) s.io_seg w, drive }

/-- `ideintr` up to its test of `io_count`. -/
def ideintrData (s : Ide) : Ide :=
  let s := { s with io_sector := (s.io_sector + 1) % 65536, io_count := s.io_count - 1 }
  let s := if s.io_cmd ≠ 0 then recvWords 256 s else s
  { s with io_buf := (s.io_buf + 512) % 65536 }

/-! ## `rk.c` -/

/-- The parts of `struct buf` that say what to transfer. -/
structure Request where
  b_flags : BFlags
  b_dev : ℕ
  b_wcount : ℕ
  b_addr : ℕ
  b_xmem : ℕ
  b_blkno : ℕ

/-- The driver with its queue; `ρ` are the buffers. -/
structure Rk (ρ : Type) extends Ide where
  buf : ρ → Request
  d_active : ℕ
  d_errcnt : ℕ
  /-- The queue from `d_actf` on, through `av_forw`. -/
  d_actf : List ρ

variable {ρ : Type} [DecidableEq ρ]

/-- The segment of the kernel's data. -/
def core_ds : ℕ := 0x1000

namespace Rk

/-- Change the flags of a buffer. -/
def setFlags (s : Rk ρ) (bp : ρ) (f : BFlags → BFlags) : Rk ρ :=
  { s with buf := update s.buf bp { s.buf bp with b_flags := f (s.buf bp).b_flags } }

end Rk

/-- Mark I/O complete. `brelse` gives an asynchronous buffer back; here that is a matter of flags. -/
def iodone (bp : ρ) (s : Rk ρ) : Rk ρ :=
  let s := s.setFlags bp fun fl => { fl with b_done := true }
  if (s.buf bp).b_flags.b_async then
    s.setFlags bp fun fl => { fl with b_wanted := false, b_busy := false, b_async := false }
  else s.setFlags bp fun fl => { fl with b_wanted := false }

/-- Start the transfer of a buffer: of whole pages if it is `B_PHYS`, else of one block. The count
of sectors is an `unsigned int` that `ideio` takes as an `int`. -/
def devstart (bp : ρ) (s : Rk ρ) : Rk ρ :=
  let b := s.buf bp
  let (seg, off, n) :=
    if b.b_flags.b_phys then ((b.b_xmem * 256) % 65536, 0, (8 * b.b_wcount) % 65536)
    else (core_ds, b.b_addr, 1)
  { s with
    toIde := ideio ((b.b_blkno + NRKBLK * minor b.b_dev) % 65536)
      (if n < 32768 then n else n - 65536) off seg (if b.b_flags.b_read then 1 else 0) s.toIde }

def rkstart (s : Rk ρ) : Rk ρ :=
  match s.d_actf with
  | [] => s
  | bp :: _ => devstart bp { s with d_active := s.d_active + 1 }

/-- A request has ended: finish it and start the next. -/
def rkintr (s : Rk ρ) : Rk ρ :=
  if s.d_active = 0 then s
  else
    match s.d_actf with
    | [] => s
    | bp :: rest => rkstart (iodone bp { s with d_active := 0, d_errcnt := 0, d_actf := rest })

/-- Queue a request, and start it if the drive is free. -/
def rkstrategy (bp : ρ) (s : Rk ρ) : Rk ρ :=
  let d := if minor (s.buf bp).b_dev ≤ 7 then 1 else minor (s.buf bp).b_dev - 7
  if NRKBLK * d ≤ (s.buf bp).b_blkno then
    iodone bp (s.setFlags bp fun fl => { fl with b_error := true })
  else
    let s := { s with d_actf := s.d_actf ++ [bp] }
    if s.d_active = 0 then rkstart s else s

/-- The interrupt that ends a sector. -/
def ideintr (s : Rk ρ) : Rk ρ :=
  let s := { s with toIde := ideintrData s.toIde }
  if s.io_count ≤ 0 then rkintr s
  else
    { s with
      toIde := idestart s.io_sector (if s.io_cmd = 0 then s.io_buf else 0) s.io_seg s.toIde }

/-- A pending interrupt is taken. -/
def takeIntr (s : Rk ρ) : Option (Rk ρ) :=
  if s.drive.irq then some (ideintr { s with drive := { s.drive with irq := false } }) else none

end UnixV6
