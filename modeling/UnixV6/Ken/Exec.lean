import UnixV6.Dmr.Pc
import UnixV6.H.Inode
import UnixV6.Ken.FileBytes

/-!
# `exec` (`ken/sys1.c`)

The argument strings are packed into a disk buffer, the header of the file is read into `u_hdr`, and
once the checks are passed the pages of the process are cleared and filled again: text through a
`p_addr` that is moved by `DSIZE` for the time of the transfer, data, and the arguments with the first
register frame at the top of the stack. The process stays in core meanwhile, but a transfer may have
to wait for a block, and then `swtch` saves the u area to where `p_addr` points.
-/

open Function

namespace UnixV6

def E2BIG : ℕ := 7
def ENOEXEC : ℕ := 8
def EACCES : ℕ := 13

/-- Types of files in `i_mode`, and the bits that `exec` looks at. -/
def IFMT : BitVec 16 := 0x6000
@[inherit_doc IFMT] def ISUID : BitVec 16 := 0x0800
@[inherit_doc IFMT] def ISGID : BitVec 16 := 0x0400
@[inherit_doc IFMT] def IEXEC : BitVec 16 := 0x0040

/-- `i_size0` and `i_size1`. -/
def Dinode.i_size (ip : Dinode) : BitVec 24 := ip.i_size0 ++ ip.i_size1

/-- `access(ip, IEXEC)` with no error. -/
def Dinode.execAccess (ip : Dinode) (u_uid u_gid : BitVec 8) : Bool :=
  if u_uid = 0 then ip.i_mode &&& (IEXEC ||| IEXEC >>> 3 ||| IEXEC >>> 6) ≠ 0
  else
    let m := if u_uid = ip.i_uid then IEXEC
      else if u_gid = ip.i_gid then IEXEC >>> 3
      else IEXEC >>> 6
    ip.i_mode &&& m ≠ 0

/-! ## Reading the file -/

/-- The three transfers of `exec`. -/
inductive ExecRead
  | header | text | data
  deriving DecidableEq, Repr

/-- What `readi` meets at a logical block: the block that `bmap` comes back with, or 0, the error that
`bmap` or `bread` leaves, or 0, and the bytes from `b_addr` on, with the kernel's own behind the 512
of the buffer. -/
structure Fetch where
  bn : BitVec 16
  err : ℕ
  b_addr : Block

/-- A file with what the disk does when it is read, and the error that `iput` leaves when it updates
the inode, or 0. A missing block is an error, and a block without an error holds the bytes of the
file. -/
structure ExecFile where
  ip : Dinode
  byte : ℕ → Byte
  fetch : ExecRead → ℕ → Fetch
  iputErr : ℕ
  err_of_missing : ∀ r lbn, (fetch r lbn).bn = 0 → (fetch r lbn).err ≠ 0
  delivered : ∀ r lbn i, (fetch r lbn).err = 0 → i < 512 →
    (fetch r lbn).b_addr i = byte (lbn * 512 + i)

/-- A byte and the address that it is stored at. -/
abbrev Store : Type := BitVec 16 × Byte

/-- What `iomove` stores on `B_READ`. -/
def Move.stores (mv : Move) (b : Block) : List Store := mv.touched.map fun x => (x.2, b x.1.toNat)

namespace ExecFile

/-- A turn of the loop of `readi`. -/
def turn (f : ExecFile) (r : ExecRead) (u : IoArgs) : Option Move × IoArgs :=
  let fe := f.fetch r u.lbn.toNat
  u.readi .file f.ip.i_size ⟨fe.bn, fe.err, fun _ => false⟩

/-- The bytes that a turn stores. -/
def stored (f : ExecFile) (r : ExecRead) (u : IoArgs) : List Store :=
  (f.turn r u).1.elim [] fun mv => mv.stores (f.fetch r u.lbn.toNat).b_addr

/-- The loop of `readi`, for at most so many turns. -/
def readLoop (f : ExecFile) (r : ExecRead) : ℕ → IoArgs → List Store × IoArgs
  | 0, u => ([], u)
  | n + 1, u =>
    let t := f.turn r u
    if XferSys.again t then
      let rest := readLoop f r n t.2
      (f.stored r u ++ rest.1, rest.2)
    else (f.stored r u, t.2)

/-- `readi`. -/
def readi (f : ExecFile) (r : ExecRead) (u : IoArgs) : List Store × IoArgs :=
  if u.u_count = 0 then ([], u) else f.readLoop r u.u_count.toNat u

/-- The blocks that the loop of `readi` asks `bmap` and `bread` for, in at most so many turns. -/
def askLoop (f : ExecFile) (r : ExecRead) : ℕ → IoArgs → List ℕ
  | 0, _ => []
  | n + 1, u =>
    if (dpcmp (f.ip.i_size.setWidth 32) u.u_offset).sle 0 then []
    else
      let t := f.turn r u
      u.lbn.toNat :: if XferSys.again t then askLoop f r n t.2 else []

/-- The blocks that `readi` asks for. -/
def asked (f : ExecFile) (r : ExecRead) (u : IoArgs) : List ℕ :=
  if u.u_count = 0 then [] else f.askLoop r u.u_count.toNat u

end ExecFile

/-! ## The arguments -/

/-- `fubyte`; a `char` has a sign. -/
def fubyte (mem : Mem) (addr : BitVec 16) : BitVec 16 := (mem addr).signExtend 16

def fuword (mem : Mem) (addr : BitVec 16) : Word := mem (addr + 1) ++ mem addr

/-- The inner loop: a string from `ap` on joins what is in the buffer. Zero stands for `goto bad` with
`u_error` as it is. -/
def packString (mem : Mem) : ℕ → BitVec 16 → List Byte → Except ℕ (List Byte)
  -- not reached: 511 bytes are too many
  | 0, _, _ => .error E2BIG
  | n + 1, ap, packed =>
    let c := fubyte mem ap
    if c = -1 then .error 0
    else
      let packed := packed ++ [c.setWidth 8]
      if packed.length > 510 then .error E2BIG
      else if c = 0 then .ok packed
      else packString mem n (ap + 1) packed

/-- The outer loop: `na` and the `nc` bytes in the buffer. -/
def packArgs (mem : Mem) : ℕ → BitVec 16 → ℕ → List Byte → Except ℕ (ℕ × List Byte)
  -- not reached: every string has a byte
  | 0, _, _, _ => .error E2BIG
  | n + 1, arg, na, packed =>
    let ap := fuword mem arg
    if ap = 0 then .ok (na, packed)
    else if ap = -1 then .error 0
    else
      match packString mem 511 ap packed with
      | .error e => .error e
      | .ok packed => packArgs mem n (arg + 2) (na + 1) packed

/-- Both loops, from an empty buffer. -/
@[irreducible]
def packVector (mem : Mem) (arg : BitVec 16) : Except ℕ (ℕ × List Byte) := packArgs mem 512 arg 0 []

/-- An odd number of bytes is made even. -/
def padded (packed : List Byte) : List Byte :=
  if packed.length % 2 = 1 then packed ++ [0] else packed

/-- `suword`. -/
def suword (addr : BitVec 16) (value : Word) : List Store :=
  [(addr, lobyte value), (addr + 1, hibyte value)]

/-- `do subyte(c++, *cp); while(*cp++);` with `c` and the buffer from `cp` on. -/
def unpackString : List Byte → BitVec 16 → List Store × List Byte × BitVec 16
  | [], c => ([], [], c)
  | ch :: cp, c =>
    if ch = 0 then ([(c, ch)], cp, c + 1)
    else
      let r := unpackString cp (c + 1)
      ((c, ch) :: r.1, r.2)

/-- `while(na--)`: the pointers from `ap` on and the strings from `c` on. -/
def unpackArgs : ℕ → List Byte → BitVec 16 → BitVec 16 → List Store
  | 0, _, _, _ => []
  | na + 1, cp, ap, c =>
    let r := unpackString cp c
    suword ap c ++ r.1 ++ unpackArgs na r.2.1 (ap + 2) r.2.2

/-! ## The call -/

/-- A signal, below `NSIG`. -/
abbrev Signo : Type := Fin 20

/-- What `exec` reads and changes: core, the process and its u area, the number of calls that are
running, and what the call holds. -/
structure ExecSys where
  core : Core
  p_addr : ℕ
  /-- `STRC` in `p_flag`. -/
  strc : Bool
  p_uid : BitVec 8
  u_uid : BitVec 8
  u_gid : BitVec 8
  u_error : ℕ
  u_arg1 : BitVec 16
  u_signal : Signo → Word
  /-- The 16 words, byte by byte. -/
  u_hdr : ℕ → Byte
  /-- `u_stack[KSSIZE - 2]`, where the registers of the user are saved. -/
  u_sp : BitVec 16
  execnt : ℕ
  bufHeld : Bool
  inodeHeld : Bool

/-- The 64 Kbytes that a segment reaches. -/
def segment (core : Core) (page : ℕ) : Mem := fun a => core (linear a.toNat (segOf page))

/-- The stores of a transfer, through the segment of `page`. -/
def storeAll (page : ℕ) (stores : List Store) (core : Core) : Core :=
  stores.foldl (fun core x => wrbyte core x.1.toNat (segOf page) x.2) core

/-- `clearseg`. -/
def clearseg (dst : ℕ) (core : Core) : Core := fun x =>
  if linear 0 (segOf dst) ≤ x ∧ x < linear 0 (segOf dst) + 4096 then 0 else core x

/-- `for(c=0; c<PSIZE; c++) clearseg(u.u_procp->p_addr+c);` -/
def clearPages (page : ℕ) (core : Core) : Core :=
  (List.range PSIZE).foldl (fun core c => clearseg (page + c) core) core

/-- A word of the header. -/
def hdrWord (u_hdr : ℕ → Byte) (i : ℕ) : Word := u_hdr (2 * i + 1) ++ u_hdr (2 * i)

/-- The header after a transfer; `u_base` counts from `&u.u_hdr[0]`. -/
def storeHdr (u_hdr : ℕ → Byte) (stores : List Store) : ℕ → Byte :=
  stores.foldl (fun hdr x => update hdr x.1.toNat x.2) u_hdr

/-- What `exec` has in hand when all checks are passed: the arguments, and where the reading of the
file stands. -/
structure Ready where
  na : ℕ
  packed : List Byte
  u : IoArgs

/-- The checks of the header `u_hdr`, with what its transfer has left in the arguments; nothing is left
where the code goes to `bad`. -/
def checkHeader (na : ℕ) (packed : List Byte) (u : IoArgs) (s : ExecSys) :
    ExecSys × Option Ready :=
  if s.u_error ≠ 0 then (s, none)
  else if hdrWord s.u_hdr 0 ≠ 0x0301 ∨ hdrWord s.u_hdr 1 ≠ 0x0430 ∨ hdrWord s.u_hdr 2 ≠ 0x20 then
    ({ s with u_error := ENOEXEC }, none)
  -- `(PSIZE-16)*PAGESIZ`, compared as an `int`
  else if (8192 : BitVec 16).sle (hdrWord s.u_hdr 4) then ({ s with u_error := E2BIG }, none)
  else (s, some ⟨na, packed, u⟩)

/-- The transfer of the header, into the kernel since `u_segflg` is set. -/
@[irreducible]
def readHeader (f : ExecFile) (u_error : ℕ) : List Store × IoArgs :=
  f.readi .header { u_base := 0, u_count := 32, u_offset := 0, u_error := u_error }

/-- What follows the packing of the arguments. -/
def afterPack (f : ExecFile) (s : ExecSys) : Except ℕ (ℕ × List Byte) → ExecSys × Option Ready
  | .error e => (if e = 0 then s else { s with u_error := e }, none)
  | .ok r =>
    let h := readHeader f s.u_error
    checkHeader r.1 (padded r.2) h.2
      { s with u_hdr := storeHdr s.u_hdr h.1, u_error := h.2.u_error }

/-- From `access` to the checks of the header. -/
def prepare (f : ExecFile) (s : ExecSys) : ExecSys × Option Ready :=
  if f.ip.execAccess s.u_uid s.u_gid = false then ({ s with u_error := EACCES }, none)
  else if f.ip.i_mode &&& IFMT ≠ 0 then (s, none)
  else afterPack f s (packVector (segment s.core s.p_addr) s.u_arg1)

namespace Ready

variable (rdy : Ready)

/-- The arguments of the transfer of the text. -/
def textArgs (u_hdr : ℕ → Byte) : IoArgs := { rdy.u with u_base := 0, u_count := hdrWord u_hdr 4 }

/-- The transfer of the text, with `p_addr` moved. -/
def text (f : ExecFile) (u_hdr : ℕ → Byte) : List Store × IoArgs :=
  f.readi .text (rdy.textArgs u_hdr)

/-- The arguments of the transfer of the data, from where the text has left the offset. -/
def dataArgs (f : ExecFile) (u_hdr : ℕ → Byte) : IoArgs :=
  { (rdy.text f u_hdr).2 with u_base := 0, u_count := hdrWord u_hdr 6 }

/-- The transfer of the data. -/
def data (f : ExecFile) (u_hdr : ℕ → Byte) : List Store × IoArgs :=
  f.readi .data (rdy.dataArgs f u_hdr)

/-- `(USTACK-2) - nc - na*2 - 4`, the user's sp. -/
def ap : BitVec 16 :=
  BitVec.ofNat 16 USTACK - 2 - BitVec.ofNat 16 rdy.packed.length - BitVec.ofNat 16 rdy.na * 2 - 4

/-- The first register frame. -/
def ts : BitVec 16 := rdy.ap - 24

/-- `(USTACK-2) - nc`, the strings. -/
def c : BitVec 16 := BitVec.ofNat 16 USTACK - 2 - BitVec.ofNat 16 rdy.packed.length

/-- The words of the first register frame, with `ds` the segment of the process. -/
def frame (page : ℕ) (u_hdr : ℕ → Byte) : List Store :=
  let ds := BitVec.ofNat 16 (segOf page)
  suword rdy.ts ds ++ suword (rdy.ts + 2) ds ++ suword (rdy.ts + 18) (hdrWord u_hdr 10) ++
    suword (rdy.ts + 20) (ds + BitVec.ofNat 16 (segOf DSIZE)) ++ suword (rdy.ts + 22) 0x200

/-- The stores of the stack segment: the user's sp, the arguments, the frame. -/
def stack (page : ℕ) (u_hdr : ℕ → Byte) : List Store :=
  suword (BitVec.ofNat 16 USTACK - 2) rdy.ap ++
    suword rdy.ap (BitVec.ofNat 16 rdy.na) ++ suword (rdy.ap + 2) (rdy.ap + 4) ++
    unpackArgs rdy.na rdy.packed (rdy.ap + 4) rdy.c ++ rdy.frame page u_hdr

/-- From `clearseg` to the signals. -/
def load (f : ExecFile) (s : ExecSys) : ExecSys :=
  let core := clearPages s.p_addr s.core
  let core := storeAll (s.p_addr + DSIZE) (rdy.text f s.u_hdr).1 core
  let core := storeAll s.p_addr (rdy.data f s.u_hdr).1 core
  let core := storeAll s.p_addr (rdy.stack s.p_addr s.u_hdr) core
  let setuid := s.strc = false ∧ f.ip.i_mode &&& ISUID ≠ 0 ∧ s.u_uid ≠ 0
  let setgid := s.strc = false ∧ f.ip.i_mode &&& ISGID ≠ 0
  { s with
    core := core
    u_error := (rdy.data f s.u_hdr).2.u_error
    u_sp := rdy.ts
    u_uid := if setuid then f.ip.i_uid else s.u_uid
    p_uid := if setuid then f.ip.i_uid else s.p_uid
    u_gid := if setgid then f.ip.i_gid else s.u_gid
    u_signal := fun i => if s.u_signal i ≠ 1 then 0 else s.u_signal i }

end Ready

/-- From `access` to the label `bad`. -/
def execBody (f : ExecFile) (s : ExecSys) : ExecSys :=
  match prepare f s with
  | (s, none) => s
  | (s, some rdy) => rdy.load f s

/-- The inode and the buffer are in hand, and the call is counted. -/
def entered (s : ExecSys) : ExecSys :=
  { s with inodeHeld := true, execnt := s.execnt + 1, bufHeld := true }

/-- The label `bad`. -/
def leave (f : ExecFile) (s : ExecSys) : ExecSys :=
  { s with
    u_error := if f.iputErr = 0 then s.u_error else f.iputErr
    inodeHeld := false
    bufHeld := false
    execnt := s.execnt - 1 }

/-- `exec`, once fewer than `NEXEC` calls are running. `namei` has set an error where it finds no
inode; other calls come to and go from `execnt` on their own. -/
def exec (name : Except {e : ℕ // e ≠ 0} ExecFile) (s : ExecSys) : ExecSys :=
  match name with
  | .error e => { s with u_error := e }
  | .ok f => leave f (execBody f (entered s))

/-- `trap0` has cleared `u_error`, and a call starts with nothing in hand. -/
def trap0 (s : ExecSys) : ExecSys := { s with u_error := 0, bufHeld := false, inodeHeld := false }

def execTrap (name : Except {e : ℕ // e ≠ 0} ExecFile) (s : ExecSys) : ExecSys := exec name (trap0 s)

end UnixV6
